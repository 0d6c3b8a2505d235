import Udev.AddRule

/-! The chain of tests in `add_rule` as a table: which keys make the rule invalid, and which ones
are only logged and ignored. -/
namespace Udev
namespace Rules

open CString RuleLine Text

open scoped List

def comparedKeys : List CString :=
  [str "ACTION",str "DEVPATH",str "KERNEL",str "SUBSYSTEM",str "DRIVER",str "KERNELS",str "SUBSYSTEMS",
   str "DRIVERS",str "TAGS",str "RESULT"]

def freeKeys : List CString :=
  [str "TAG",str "PROGRAM",str "WAIT_FOR",str "WAIT_FOR_SYSFS",str "LABEL",str "GOTO",str "SYMLINK",
   str "OWNER",str "GROUP",str "MODE",str "OPTIONS"]

def attrKeys : List CString := [str "ATTR\x7b",str "SECLABEL\x7b",str "ATTRS\x7b",str "ENV\x7b"]

def startKeys : List CString := [str "IMPORT",str "TEST",str "RUN",str "NAME"]

def Known (key : CString) : Prop :=
  key ∈ comparedKeys ∨ key ∈ freeKeys ∨ (∃ n ∈ attrKeys, n <+: key) ∨ ∃ n ∈ startKeys, n <+: key

inductive Refused (p : KeyPair) : Prop
  | unknown (h : ¬Known p.key)
  | operator (hop : p.op.isMatch = false)
      (h : p.key ∈ comparedKeys ∨ str "ATTRS\x7b" <+: p.key ∨ str "TEST" <+: p.key)
  | brace (h : ∃ n ∈ attrKeys, n <+: p.key) (hattr : getKeyAttribute p.key = none)
  | blacklist (hop : p.op.isMatch = false) (h : str "ENV\x7b" <+: p.key)
      (hattr : ∃ a ∈ envBlacklist, getKeyAttribute p.key = some a)

section Rows

variable {o : Options} {key value r : CString} {op : Op}

theorem addKey_comparedKeys (h : key ∈ comparedKeys) : addKey o ⟨key,op,value⟩ = none ↔ op.isMatch = false := by
  have hone : ∀ (type : TokenType) (value : CString), matchOnly type op value .none = none ↔ op.isMatch = false := by
    intro type value
    simp [matchOnly]
  have hsub : addSubsystem op value = none ↔ op.isMatch = false := by
    unfold addSubsystem
    split_ifs <;> exact hone _ _
  simp only [comparedKeys,List.mem_cons,List.not_mem_nil,or_false] at h
  rcases h with rfl | rfl | rfl | rfl | rfl | rfl | rfl | rfl | rfl | rfl
  · exact hone _ _
  · exact hone _ _
  · exact hone _ _
  · exact hsub
  · exact hone _ _
  · exact hone _ _
  · exact hone _ _
  · exact hone _ _
  · exact hone _ _
  · exact hone _ _

theorem addKey_freeKeys (h : key ∈ freeKeys) : addKey o ⟨key,op,value⟩ ≠ none := by
  simp only [freeKeys,List.mem_cons,List.not_mem_nil,or_false] at h
  rcases h with rfl | rfl | rfl | rfl | rfl | rfl | rfl | rfl | rfl | rfl | rfl <;> exact Option.some_ne_none _

theorem addKey_attr :
    addKey o ⟨str "ATTR\x7b" ++ r,op,value⟩ = none ↔ getKeyAttribute (str "ATTR\x7b" ++ r) = none :=
  Option.map_eq_none_iff

theorem addKey_seclabel :
    addKey o ⟨str "SECLABEL\x7b" ++ r,op,value⟩ = none ↔ getKeyAttribute (str "SECLABEL\x7b" ++ r) = none :=
  Option.map_eq_none_iff

theorem addKey_attrs : addKey o ⟨str "ATTRS\x7b" ++ r,op,value⟩ = none ↔
    getKeyAttribute (str "ATTRS\x7b" ++ r) = none ∨ op.isMatch = false := by
  show (getKeyAttribute (str "ATTRS\x7b" ++ r)).bind _ = none ↔ _
  cases getKeyAttribute (str "ATTRS\x7b" ++ r) <;> simp [matchOnly]

theorem addKey_env : addKey o ⟨str "ENV\x7b" ++ r,op,value⟩ = none ↔
    getKeyAttribute (str "ENV\x7b" ++ r) = none ∨
      op.isMatch = false ∧ ∃ a ∈ envBlacklist, getKeyAttribute (str "ENV\x7b" ++ r) = some a := by
  show (getKeyAttribute (str "ENV\x7b" ++ r)).bind _ = none ↔ _
  cases getKeyAttribute (str "ENV\x7b" ++ r) with
  | none => simp
  | some a => by_cases hm : op.isMatch = true <;> simp [addEnv,hm]

theorem addKey_import : addKey o ⟨str "IMPORT" ++ r,op,value⟩ ≠ none := Option.some_ne_none _

theorem addKey_test : addKey o ⟨str "TEST" ++ r,op,value⟩ = none ↔ op.isMatch = false := by
  show matchOnly _ _ _ _ = none ↔ _
  simp [matchOnly]

theorem addKey_run : addKey o ⟨str "RUN" ++ r,op,value⟩ ≠ none := Option.some_ne_none _

theorem addKey_name : addKey o ⟨str "NAME" ++ r,op,value⟩ ≠ none := Option.some_ne_none _

theorem addKey_unknown (h : ¬Known key) : addKey o ⟨key,op,value⟩ = none := by
  have hstart : ∀ n ∈ attrKeys ++ startKeys, n.isPrefixOf key = false := by
    intro n hn
    rw [Bool.eq_false_iff]
    intro hpre
    have hpre := List.isPrefixOf_iff_prefix.mp hpre
    rcases List.mem_append.mp hn with hn | hn
    · exact h (Or.inr (Or.inr (Or.inl ⟨n,hn,hpre⟩)))
    · exact h (Or.inr (Or.inr (Or.inr ⟨n,hn,hpre⟩)))
  simp only [attrKeys,startKeys,List.cons_append,List.nil_append,List.forall_mem_cons] at hstart
  simp only [Known,comparedKeys,freeKeys,List.mem_cons,List.not_mem_nil,or_false,not_or] at h
  simp only [addKey,startswith,h,hstart,if_false,or_false,Bool.false_eq_true]

end Rows

theorem addKey_eq_none_iff {o : Options} {p : KeyPair} : addKey o p = none ↔ Refused p := by
  obtain ⟨key,op,value⟩ := p
  constructor
  · intro h
    by_cases hknown : Known key
    · rcases hknown with hkey | hkey | ⟨n,hn,r,rfl⟩ | ⟨n,hn,r,rfl⟩
      · exact .operator ((addKey_comparedKeys hkey).mp h) (Or.inl hkey)
      · exact absurd h (addKey_freeKeys hkey)
      · simp only [attrKeys,List.mem_cons,List.not_mem_nil,or_false] at hn
        rcases hn with rfl | rfl | rfl | rfl
        · exact .brace ⟨_,by simp [attrKeys],r,rfl⟩ (addKey_attr.mp h)
        · exact .brace ⟨_,by simp [attrKeys],r,rfl⟩ (addKey_seclabel.mp h)
        · rcases addKey_attrs.mp h with hattr | hop
          · exact .brace ⟨_,by simp [attrKeys],r,rfl⟩ hattr
          · exact .operator hop (Or.inr (Or.inl ⟨r,rfl⟩))
        · rcases addKey_env.mp h with hattr | ⟨hop,hattr⟩
          · exact .brace ⟨_,by simp [attrKeys],r,rfl⟩ hattr
          · exact .blacklist hop ⟨r,rfl⟩ hattr
      · simp only [startKeys,List.mem_cons,List.not_mem_nil,or_false] at hn
        rcases hn with rfl | rfl | rfl | rfl
        · exact absurd h addKey_import
        · exact .operator (addKey_test.mp h) (Or.inr (Or.inr ⟨r,rfl⟩))
        · exact absurd h addKey_run
        · exact absurd h addKey_name
    · exact .unknown hknown
  · intro h
    cases h with
    | unknown h => exact addKey_unknown h
    | operator hop h =>
      rcases h with h | ⟨r,rfl⟩ | ⟨r,rfl⟩
      · exact (addKey_comparedKeys h).mpr hop
      · exact addKey_attrs.mpr (Or.inr hop)
      · exact addKey_test.mpr hop
    | brace h hattr =>
      obtain ⟨n,hn,r,rfl⟩ := h
      simp only [attrKeys,List.mem_cons,List.not_mem_nil,or_false] at hn
      rcases hn with rfl | rfl | rfl | rfl
      · exact addKey_attr.mpr hattr
      · exact addKey_seclabel.mpr hattr
      · exact addKey_attrs.mpr (Or.inl hattr)
      · exact addKey_env.mpr (Or.inl hattr)
    | blacklist hop h hattr =>
      obtain ⟨r,rfl⟩ := h
      exact addKey_env.mpr (Or.inr ⟨hop,hattr⟩)

/-- At most five tokens, as the options of one value can give, and one of an ENV key, the only one
for which the result of `rule_add_key` is looked at. -/
structure Few (key : CString) (e : KeyEffect) : Prop where
  tokens : e.tokens.length ≤ 5
  checked : e.checked = true → e.tokens.length = 1 ∧ str "ENV\x7b" <+: key

section Few

variable {key : CString}

theorem Taken.ite_pos {P : KeyEffect → Prop} {c : Prop} [Decidable c] {a b : Option KeyEffect}
    (ha : c → Taken P a) (hb : Taken P b) : Taken P (if c then a else b) := by
  split_ifs with hc
  · exact ha hc
  · exact hb

theorem few_unchecked {e : KeyEffect} (h : e.tokens.length ≤ 5) (hc : e.checked = false) : Few key e :=
  ⟨h,fun hc' => by rw [hc] at hc'; cases hc'⟩

theorem few_oneKey (type : TokenType) (op : Op) (value : CString) (data : KeyData) :
    Few key (oneKey type op value data) := few_unchecked (by simp [oneKey]) rfl

theorem takenFew_matchOnly (type : TokenType) (op : Op) (value : CString) (data : KeyData) :
    Taken (Few key) (matchOnly type op value data) := Taken.ite (taken_some (few_oneKey ..)) taken_none

theorem takenFew_addEnv (hkey : str "ENV\x7b" <+: key) (op : Op) (value attr : CString) :
    Taken (Few key) (addEnv op value attr) := by
  refine Taken.ite (taken_some ?_) (Taken.ite taken_none (taken_some ?_)) <;>
    exact ⟨by simp [oneKey],fun _ => ⟨rfl,hkey⟩⟩

theorem few_addImport (op : Op) (value attr : CString) : Few key (addImport op value attr) := by
  unfold addImport
  split_ifs <;> exact few_unchecked (by simp [oneKey]) rfl

theorem few_addRun (op : Op) (value attr : CString) : Few key (addRun op value attr) := by
  unfold addRun
  split_ifs <;> exact few_unchecked (by simp [oneKey]) rfl

theorem few_addName (op : Op) (value : CString) : Few key (addName op value) := by
  unfold addName
  split_ifs <;> exact few_unchecked (by simp [oneKey]) rfl

theorem few_addOwner (n : ℤ) (lookup : CString → Option ℕ) (idType type : TokenType) (op : Op) (value : CString) :
    Few key (addOwner n lookup idType type op value) := by
  refine few_unchecked ?_ rfl
  simp only [addOwner]
  split_ifs <;> simp

theorem few_addMode (op : Op) (value : CString) : Few key (addMode op value) := by
  refine few_unchecked ?_ rfl
  simp only [addMode]
  split_ifs <;> simp

theorem few_addOptions (op : Op) (value : CString) : Few key (addOptions op value) := by
  refine few_unchecked ?_ rfl
  have hone : ∀ (o : Option CString) (f : CString → List KeyToken), (∀ s, (f s).length ≤ 1) →
      (o.elim [] f).length ≤ 1 := by
    intro o f hf
    cases o with
    | none => exact Nat.zero_le 1
    | some s => exact hf s
  have hprio := hone (option value (str "link_priority="))
    (fun s => [newKey .aDevlinkPrio op none (.num (atoi s))]) fun _ => le_rfl
  have hescape := hone (option value (str "string_escape="))
    (fun s => if startswith s (str "none") then [newKey .aStringEscapeNone op none .none]
      else if startswith s (str "replace") then [newKey .aStringEscapeReplace op none .none] else [])
    fun s => by split_ifs <;> simp
  have hpersist := hone (option value (str "db_persist")) (fun _ => [newKey .aDbPersist op none .none]) fun _ => le_rfl
  have hwatch := hone (option value (str "watch")) (fun _ => [newKey .aInotifyWatch op none (.num 1)]) fun _ => le_rfl
  have hnode := hone (option value (str "static_node="))
    (fun s => [newKey .aStaticNode op (some s) .none]) fun _ => le_rfl
  simp only [addOptions,List.length_append]
  split_ifs
  · simp only [List.length_singleton]
    omega
  · omega

end Few

theorem takenFew_addKey (o : Options) (p : KeyPair) : Taken (Few p.key) (addKey o p) := by
  have hassign : ∀ mtype atype data, Few p.key (matchOrAssign mtype atype p.op p.value data) := fun _ _ _ => few_oneKey ..
  have hm : ∀ type value data, Taken (Few p.key) (matchOnly type p.op value data) := fun _ _ _ => takenFew_matchOnly _ _ _ _
  unfold addKey
  dsimp only
  refine Taken.ite (hm _ _ _) ?_
  refine Taken.ite (hm _ _ _) ?_
  refine Taken.ite (hm _ _ _) ?_
  refine Taken.ite (Taken.ite (hm _ _ _) (hm _ _ _)) ?_
  refine Taken.ite (hm _ _ _) ?_
  refine Taken.ite (Taken.map fun a => hassign ..) ?_
  refine Taken.ite (Taken.map fun a => few_oneKey ..) ?_
  refine Taken.ite (hm _ _ _) ?_
  refine Taken.ite (hm _ _ _) ?_
  refine Taken.ite (hm _ _ _) ?_
  refine Taken.ite (Taken.bind fun a => hm _ _ _) ?_
  refine Taken.ite (hm _ _ _) ?_
  refine Taken.ite_pos (fun henv => Taken.bind (takenFew_addEnv (List.isPrefixOf_iff_prefix.mp henv) _ _)) ?_
  refine Taken.ite (taken_some (hassign ..)) ?_
  refine Taken.ite (taken_some (few_oneKey ..)) ?_
  refine Taken.ite (hm _ _ _) ?_
  refine Taken.ite (taken_some ?_) ?_
  · cases getKeyAttribute (p.key.drop 6) with
    | none => exact few_unchecked (Nat.zero_le 5) rfl
    | some a => exact few_addImport ..
  refine Taken.ite (hm _ _ _) ?_
  refine Taken.ite (taken_some (few_addRun ..)) ?_
  refine Taken.ite (taken_some (few_oneKey ..)) ?_
  refine Taken.ite (taken_some (few_unchecked (Nat.zero_le 5) rfl)) ?_
  refine Taken.ite (taken_some (few_oneKey ..)) ?_
  refine Taken.ite (taken_some (few_addName ..)) ?_
  refine Taken.ite (taken_some (few_unchecked (by simp [matchOrAssign,oneKey]) rfl)) ?_
  refine Taken.ite (taken_some (few_addOwner ..)) ?_
  refine Taken.ite (taken_some (few_addOwner ..)) ?_
  refine Taken.ite (taken_some (few_addMode ..)) ?_
  exact Taken.ite (taken_some (few_addOptions ..)) taken_none

theorem addKey_env_checked {o : Options} {p : KeyPair} {e : KeyEffect} (hkey : str "ENV\x7b" <+: p.key)
    (h : addKey o p = some e) : e.checked = true := by
  obtain ⟨key,op,value⟩ := p
  obtain ⟨r,rfl⟩ : str "ENV\x7b" <+: key := hkey
  have h : (getKeyAttribute (str "ENV\x7b" ++ r)).bind (addEnv op value) = some e := h
  obtain ⟨a,-,ha⟩ := Option.bind_eq_some_iff.mp h
  unfold addEnv at ha
  split_ifs at ha <;> exact Option.some.inj ha ▸ rfl

/-- The message about a key that adds nothing to the rule; the last argument of each is the file
and the line. -/
def ignored (place : CString) (p : KeyPair) : Option CString :=
  let unknownCommand := str "IMPORT\x7bbuiltin\x7d: '" ++ p.value ++ str "' unknown " ++ place
  if startswith p.key (str "IMPORT") then
    match getKeyAttribute (p.key.drop 6) with
    | none => some (str "IMPORT\x7b\x7d type missing, ignoring IMPORT " ++ place)
    | some attr =>
      if attr = str "program" then none
      else if attr = str "builtin" then
        if BuiltinCmd.lookup p.value ≠ .max then none else some unknownCommand
      else if attr = str "file" ∨ attr = str "db" ∨ attr = str "cmdline" ∨ attr = str "parent" then none
      else some (str "IMPORT\x7b\x7d unknown type, ignoring IMPORT " ++ place)
  else if startswith p.key (str "RUN") then
    let attr := (getKeyAttribute (p.key.drop 3)).getD (str "program")
    if attr = str "builtin" then
      if BuiltinCmd.lookup p.value ≠ .max then none else some unknownCommand
    else if attr = str "program" then none
    else some (str "RUN\x7b\x7d unknown type, ignoring RUN " ++ place)
  else if startswith p.key (str "NAME") then
    if p.op.isMatch then none
    else if p.value = str "%k" then
      some (str "NAME=\"%k\" is ignored, because it breaks kernel supplied names, please remove it from " ++
        place ++ str "\n")
    else if p.value = [] then
      some (str "NAME=\"\" is ignored, because udev will not delete any device nodes, please remove it from " ++
        place ++ str "\n")
    else none
  else none

inductive Ignored (p : KeyPair) : Prop
  | importType (h : str "IMPORT" <+: p.key)
      (hattr : ∀ a ∈ [str "program",str "builtin",str "file",str "db",str "cmdline",str "parent"],
        getKeyAttribute p.key ≠ some a)
  | runType (h : str "RUN" <+: p.key)
      (hattr : ∃ a, getKeyAttribute p.key = some a ∧ a ∉ [str "program",str "builtin"])
  | command (h : str "IMPORT" <+: p.key ∨ str "RUN" <+: p.key) (hattr : getKeyAttribute p.key = some (str "builtin"))
      (hcmd : BuiltinCmd.lookup p.value = .max)
  | name (h : str "NAME" <+: p.key) (hop : p.op.isMatch = false) (hvalue : p.value = str "%k" ∨ p.value = [])

section Ignored

variable {place r value : CString} {op : Op}

theorem ignored_import : (ignored place ⟨str "IMPORT" ++ r,op,value⟩).isSome ↔
    (∀ a ∈ [str "program",str "builtin",str "file",str "db",str "cmdline",str "parent"],
      getKeyAttribute (str "IMPORT" ++ r) ≠ some a) ∨
    getKeyAttribute (str "IMPORT" ++ r) = some (str "builtin") ∧ BuiltinCmd.lookup value = .max := by
  have hdrop : getKeyAttribute ((str "IMPORT" ++ r).drop 6) = getKeyAttribute (str "IMPORT" ++ r) := rfl
  have hstart : startswith (str "IMPORT" ++ r) (str "IMPORT") = true := rfl
  simp only [ignored,hstart,if_true,hdrop]
  cases getKeyAttribute (str "IMPORT" ++ r) with
  | none => simp
  | some a =>
    have hne : str "builtin" ≠ str "program" := by decide
    by_cases hprogram : a = str "program"
    · simp [hprogram,Ne.symm hne]
    by_cases hbuiltin : a = str "builtin"
    · by_cases hcmd : BuiltinCmd.lookup value = .max <;> simp [hbuiltin,hne,hcmd]
    by_cases hfile : a = str "file" ∨ a = str "db" ∨ a = str "cmdline" ∨ a = str "parent"
    · have hmem : a ∈ [str "program",str "builtin",str "file",str "db",str "cmdline",str "parent"] :=
        List.mem_cons_of_mem _ (List.mem_cons_of_mem _ (by simpa using hfile))
      simp only [hprogram,hbuiltin,hfile,if_false,if_true,Option.isSome_none,Bool.false_eq_true,false_iff,not_or]
      exact ⟨fun hall => hall a hmem rfl,by simp [hbuiltin]⟩
    · simp only [hprogram,hbuiltin,hfile,if_false]
      simp only [not_or] at hfile
      simp [hprogram,hbuiltin,hfile]

theorem ignored_run : (ignored place ⟨str "RUN" ++ r,op,value⟩).isSome ↔
    (∃ a, getKeyAttribute (str "RUN" ++ r) = some a ∧ a ∉ [str "program",str "builtin"]) ∨
    getKeyAttribute (str "RUN" ++ r) = some (str "builtin") ∧ BuiltinCmd.lookup value = .max := by
  have hdrop : getKeyAttribute ((str "RUN" ++ r).drop 3) = getKeyAttribute (str "RUN" ++ r) := rfl
  have hstart : startswith (str "RUN" ++ r) (str "RUN") = true := rfl
  have hnot : startswith (str "RUN" ++ r) (str "IMPORT") = false := rfl
  have hne : str "program" ≠ str "builtin" := by decide
  simp only [ignored,hstart,hnot,if_true,Bool.false_eq_true,if_false,hdrop]
  cases getKeyAttribute (str "RUN" ++ r) with
  | none => simp [hne]
  | some a =>
    by_cases hbuiltin : a = str "builtin"
    · by_cases hcmd : BuiltinCmd.lookup value = .max <;> simp [hbuiltin,hcmd]
    by_cases hprogram : a = str "program"
    · simp [hprogram,hne]
    · simp [hprogram,hbuiltin]

theorem ignored_name : (ignored place ⟨str "NAME" ++ r,op,value⟩).isSome ↔
    op.isMatch = false ∧ (value = str "%k" ∨ value = []) := by
  have hstart : startswith (str "NAME" ++ r) (str "NAME") = true := rfl
  have hnot : startswith (str "NAME" ++ r) (str "IMPORT") = false := rfl
  have hnot' : startswith (str "NAME" ++ r) (str "RUN") = false := rfl
  simp only [ignored,hstart,hnot,hnot',if_true,Bool.false_eq_true,if_false]
  by_cases hm : op.isMatch = true
  · simp [hm]
  by_cases hk : value = str "%k"
  · simp [hm,hk]
  by_cases hnil : value = []
  · have hne : ([] : CString) ≠ str "%k" := by decide
    simp [hm,hnil,hne]
  · simp [hm,hk,hnil]

end Ignored

theorem ignored_isSome_iff {place : CString} {p : KeyPair} : (ignored place p).isSome ↔ Ignored p := by
  obtain ⟨key,op,value⟩ := p
  constructor
  · intro h
    by_cases himport : str "IMPORT" <+: key
    · obtain ⟨r,rfl⟩ := himport
      rcases ignored_import.mp h with hattr | ⟨hattr,hcmd⟩
      · exact .importType ⟨r,rfl⟩ hattr
      · exact .command (Or.inl ⟨r,rfl⟩) hattr hcmd
    by_cases hrun : str "RUN" <+: key
    · obtain ⟨r,rfl⟩ := hrun
      rcases ignored_run.mp h with hattr | ⟨hattr,hcmd⟩
      · exact .runType ⟨r,rfl⟩ hattr
      · exact .command (Or.inr ⟨r,rfl⟩) hattr hcmd
    by_cases hname : str "NAME" <+: key
    · obtain ⟨r,rfl⟩ := hname
      obtain ⟨hop,hvalue⟩ := ignored_name.mp h
      exact .name ⟨r,rfl⟩ hop hvalue
    · simp [ignored,startswith,List.isPrefixOf_iff_prefix,himport,hrun,hname] at h
  · intro h
    cases h with
    | importType h hattr =>
      obtain ⟨r,rfl⟩ := h
      exact ignored_import.mpr (Or.inl hattr)
    | runType h hattr =>
      obtain ⟨r,rfl⟩ := h
      exact ignored_run.mpr (Or.inl hattr)
    | command h hattr hcmd =>
      rcases h with ⟨r,rfl⟩ | ⟨r,rfl⟩
      · exact ignored_import.mpr (Or.inr ⟨hattr,hcmd⟩)
      · exact ignored_run.mpr (Or.inr ⟨hattr,hcmd⟩)
    | name h hop hvalue =>
      obtain ⟨r,rfl⟩ := h
      exact ignored_name.mpr ⟨hop,hvalue⟩

end Rules
end Udev
