import Udev.RuleLine
import Udev.StableSort
import Udev.Text

/-! The tokens that a rules file is compiled to, how a key of a rule line becomes a
token, and the sort that puts the tokens of a rule in the order in which they are
handled. A token holds its strings where the source holds offsets into the string
buffer; an unset label is the empty string, whose offset is 0. -/
namespace Udev
namespace Rules

open CString RuleLine Text StableSort

inductive Glob
  | unset | plain | glob | split | splitGlob | something
  deriving DecidableEq, Repr

inductive Subst
  | unset | none | format | subsys
  deriving DecidableEq, Repr

/-- `enum token_type`: the tokens of a rule are sorted and handled in this order. -/
inductive TokenType
  | unset | rule
  | mAction | mDevpath | mKernel | mDevlink | mName | mEnv | mTag | mSubsystem | mDriver | mWaitfor
  | mAttr
  | mParentsMin | mKernels | mSubsystems | mDrivers | mAttrs | mTags | mParentsMax
  | mTest | mProgram | mImportFile | mImportProg | mImportBuiltin | mImportDb | mImportCmdline
  | mImportParent | mResult | mMax
  | aStringEscapeNone | aStringEscapeReplace | aDbPersist | aInotifyWatch | aDevlinkPrio
  | aOwner | aGroup | aMode | aOwnerId | aGroupId | aModeId | aTag | aStaticNode | aSeclabel | aEnv
  | aName | aDevlink | aAttr | aRunBuiltin | aRunProgram | aGoto
  | tkEnd
  deriving DecidableEq, Repr

namespace TokenType

def code (t : TokenType) : ℕ := t.ctorIdx

theorem code_injective : Function.Injective code :=
  Function.LeftInverse.injective ofNat_ctorIdx

/-- `TK_M_PARENTS_MIN < type < TK_M_PARENTS_MAX`. -/
def isParent (t : TokenType) : Bool := mParentsMin.code < t.code && t.code < mParentsMax.code

/-- `type < TK_M_MAX`, for a key. -/
def isMatch (t : TokenType) : Bool := t.code < mMax.code

/-- `type > TK_M_MAX`, for a key. -/
def isAssign (t : TokenType) : Bool := mMax.code < t.code

/-- The types that `rule_add_key` takes. -/
def isKey : TokenType → Bool
  | unset | rule | mParentsMin | mParentsMax | mMax | tkEnd => false
  | _ => true

theorem isAssign_eq {t : TokenType} (h : t.isKey = true) : t.isAssign = !t.isMatch := by
  cases t <;> first | rfl | cases h

theorem isAssign_of_isMatch {t : TokenType} (h : t.isMatch = true) : t.isAssign = false := by
  cases t <;> first | rfl | cases h

theorem isParent_of_isAssign {t : TokenType} (h : t.isAssign = true) : t.isParent = false := by
  cases t <;> first | rfl | cases h

end TokenType

/-- `enum udev_builtin_cmd`, with all optional commands built in. -/
inductive BuiltinCmd
  | blkid | btrfs | hwdb | inputId | keyboard | kmod | netId | pathId | usbId | max
  deriving DecidableEq, Repr

namespace BuiltinCmd

def name : BuiltinCmd → CString
  | blkid => str "blkid"
  | btrfs => str "btrfs"
  | hwdb => str "hwdb"
  | inputId => str "input_id"
  | keyboard => str "keyboard"
  | kmod => str "kmod"
  | netId => str "net_id"
  | pathId => str "path_id"
  | usbId => str "usb_id"
  | max => []

def all : List BuiltinCmd := [blkid,btrfs,hwdb,inputId,keyboard,kmod,netId,pathId,usbId]

def runOnce : BuiltinCmd → Bool
  | blkid | pathId | usbId => true
  | _ => false

/-- `udev_builtin_lookup`: the command is the text before the first space. -/
def lookup (command : CString) : BuiltinCmd :=
  let name := (strscpy utilPathSize command).takeWhile (· ≠ chr ' ')
  (all.find? fun c => c.name = name).getD max

end BuiltinCmd

/-- The `key` of a token. The number is the one of the union that the type uses: the
mode, the uid, the gid, the link priority or the watch. -/
structure KeyToken where
  type : TokenType := .unset
  op : Op := .opUnset
  glob : Glob := .unset
  subst : Subst := .unset
  attrsubst : Subst := .unset
  value : CString := []
  attr : CString := []
  ruleGoto : ℕ := 0
  num : ℤ := 0
  builtinCmd : BuiltinCmd := .blkid
  deriving DecidableEq, Repr

/-- The `rule` of a token. -/
structure RuleToken where
  canSetName : Bool := false
  hasStaticNode : Bool := false
  tokenCount : ℕ := 0
  label : CString := []
  deriving DecidableEq, Repr

inductive Token
  | rule (r : RuleToken) | key (k : KeyToken) | tkEnd
  deriving DecidableEq, Repr

def stringIsGlob (s : CString) : Bool :=
  s.any fun c => c = chr '*' ∨ c = chr '?' ∨ c = chr '['

def globType (value : CString) : Glob :=
  let hasSplit := (strchr value (chr '|')).isSome
  let hasGlob := stringIsGlob value
  if hasSplit && hasGlob then .splitGlob
  else if hasSplit then .split
  else if hasGlob then if value = str "?*" then .something else .glob
  else .plain

/-- How the value of an assignment or the name of an attribute is expanded. -/
def substType (value : CString) : Subst :=
  if charAt value 0 = chr '[' then .subsys
  else if (strchr value (chr '%')).isSome || (strchr value (chr '$')).isSome then .format
  else .none

/-- What `rule_add_key` gets as its data. -/
inductive KeyData
  | none | attr (s : CString) | num (z : ℤ) | builtin (cmd : BuiltinCmd)
  deriving DecidableEq, Repr

/-- The token that `rule_add_key` fills in. -/
def newKey (type : TokenType) (op : Op) (value : Option CString) (data : KeyData) : KeyToken where
  type := type
  op := op
  glob := if type.isMatch then value.elim .unset globType else .unset
  subst := if type.isAssign then value.elim .unset substType else .unset
  attrsubst := match data with | .attr s => substType s | _ => .unset
  value := value.getD []
  attr := match data with | .attr s => s | _ => []
  num := match data with | .num z => z | _ => 0
  builtinCmd := match data with | .builtin cmd => cmd | _ => .blkid

/-- The inner loop of `sort_token` over `n` tokens from `j` on: the smallest type so
far and where it is. -/
def findSmallest (ts : List KeyToken) : ℕ → ℕ → TokenType × ℕ → TokenType × ℕ
  | 0, _, r => r
  | n+1, j, r =>
    let t := (ts.getD j {}).type
    findSmallest ts n (j+1)
      (if t = .unset then r else if r.1 = .unset ∨ t.code < r.1.code then (t,j) else r)

/-- The loop of `sort_token` for the `n` tokens that are left: the tokens in the order
in which they are added. A token that was added is marked in place. -/
def sortLoop : ℕ → List KeyToken → ℕ → ℕ → List KeyToken
  | 0, _, _, _ => []
  | n+1, ts, start, stop =>
    let idx := (findSmallest ts (stop-start) start (.unset,0)).2
    let t := ts.getD idx {}
    t::sortLoop n (ts.set idx { t with type := .unset }) (if idx = start then start+1 else start)
      (if idx+1 = stop then stop-1 else stop)

def sortToken (ts : List KeyToken) : List KeyToken := sortLoop ts.length ts 0 ts.length

theorem sortLoop_length (n : ℕ) (ts : List KeyToken) (start stop : ℕ) :
    (sortLoop n ts start stop).length = n := by
  induction n generalizing ts start stop with
  | zero => rfl
  | succ n ih => simp [sortLoop,ih]

theorem sortToken_length (ts : List KeyToken) : (sortToken ts).length = ts.length :=
  sortLoop_length _ _ _ _

def typeAt (ts : List KeyToken) (i : ℕ) : TokenType := (ts.getD i {}).type

/-- What the inner loop knows after the indices from `start` to `j`: no token, or the
first one of the smallest type. -/
def Best (ts : List KeyToken) (start j : ℕ) (r : TokenType × ℕ) : Prop :=
  (r.1 = .unset ∧ ∀ i, start ≤ i → i < j → typeAt ts i = .unset) ∨
  (r.1 ≠ .unset ∧ start ≤ r.2 ∧ r.2 < j ∧ typeAt ts r.2 = r.1 ∧
    (∀ i, start ≤ i → i < j → typeAt ts i ≠ .unset → r.1.code ≤ (typeAt ts i).code) ∧
    ∀ i, start ≤ i → i < r.2 → typeAt ts i ≠ .unset → r.1.code < (typeAt ts i).code)

theorem Best.next {ts : List KeyToken} {start j : ℕ} {r : TokenType × ℕ} (hj : start ≤ j)
    (h : Best ts start j r) :
    Best ts start (j+1)
      (if typeAt ts j = .unset then r
       else if r.1 = .unset ∨ (typeAt ts j).code < r.1.code then (typeAt ts j,j) else r) := by
  have hlast : ∀ {i}, i < j+1 → i < j ∨ i = j := fun h => by omega
  split_ifs with h₁ h₂
  · rcases h with ⟨hr,hall⟩ | ⟨hr,hs,hlt,ht,hmin,hfirst⟩
    · refine Or.inl ⟨hr,fun i hi hij => ?_⟩
      rcases hlast hij with hij | rfl
      · exact hall i hi hij
      · exact h₁
    · refine Or.inr ⟨hr,hs,by omega,ht,fun i hi hij hne => ?_,hfirst⟩
      rcases hlast hij with hij | rfl
      · exact hmin i hi hij hne
      · exact absurd h₁ hne
  · refine Or.inr ⟨h₁,hj,by omega,rfl,fun i hi hij hne => ?_,fun i hi hij hne => ?_⟩
    · rcases hlast hij with hij | rfl
      · rcases h with ⟨hr,hall⟩ | ⟨hr,_,_,_,hmin,_⟩
        · exact absurd (hall i hi hij) hne
        · exact (h₂.resolve_left hr).le.trans (hmin i hi hij hne)
      · exact le_rfl
    · rcases h with ⟨hr,hall⟩ | ⟨hr,_,_,_,hmin,_⟩
      · exact absurd (hall i hi hij) hne
      · exact (h₂.resolve_left hr).trans_le (hmin i hi hij hne)
  · obtain ⟨hset,hge⟩ := not_or.mp h₂
    rcases h with ⟨hr,_⟩ | ⟨hr,hs,hlt,ht,hmin,hfirst⟩
    · exact absurd hr hset
    · refine Or.inr ⟨hr,hs,by omega,ht,fun i hi hij hne => ?_,hfirst⟩
      rcases hlast hij with hij | rfl
      · exact hmin i hi hij hne
      · exact not_lt.mp hge

theorem findSmallest_best (ts : List KeyToken) {start n j : ℕ} {r : TokenType × ℕ} (hj : start ≤ j)
    (h : Best ts start j r) : Best ts start (j+n) (findSmallest ts n j r) := by
  induction n generalizing j r with
  | zero => exact h
  | succ n ih =>
    have := ih (by omega) (h.next hj)
    rw [Nat.add_right_comm j 1 n] at this
    exact this

def left (ts : List KeyToken) : List KeyToken := ts.filter (·.type ≠ .unset)

def Window (ts : List KeyToken) (start stop : ℕ) : Prop :=
  ∀ i, i < start ∨ stop ≤ i → typeAt ts i = .unset

theorem typeAt_of_lt {ts : List KeyToken} {i : ℕ} (h : i < ts.length) : typeAt ts i = (ts.get ⟨i,h⟩).type := by
  simp [typeAt,h]

theorem lt_of_typeAt {ts : List KeyToken} {i : ℕ} (h : typeAt ts i ≠ .unset) : i < ts.length := by
  by_contra hge
  exact h (by simp [typeAt,List.getElem?_eq_none (not_lt.mp hge)])

theorem typeAt_set (ts : List KeyToken) (idx i : ℕ) (t : KeyToken) (h : idx < ts.length) :
    typeAt (ts.set idx t) i = if i = idx then t.type else typeAt ts i := by
  by_cases hi : i = idx
  · subst hi
    simp [typeAt,h]
  · simp [typeAt,hi,List.getD_eq_getElem?_getD,List.getElem?_set_ne (Ne.symm hi)]

theorem sortLoop_sorts (n : ℕ) (ts : List KeyToken) (start stop : ℕ) (hn : (left ts).length = n)
    (hw : Window ts start stop) :
    Sorts (fun t : KeyToken => t.type.code) (left ts) (sortLoop n ts start stop) := by
  induction n generalizing ts start stop with
  | zero =>
    rw [List.length_eq_zero_iff.mp hn]
    exact sorts_nil
  | succ n ih =>
    have hbest := findSmallest_best ts (n := stop-start) (j := start) (r := (.unset,0)) le_rfl
      (Or.inl ⟨rfl,fun i h₁ h₂ => absurd h₁ (not_le.mpr h₂)⟩)
    obtain ⟨y,hy⟩ := List.exists_mem_of_length_pos (by omega : 0 < (left ts).length)
    obtain ⟨hymem,hyset⟩ := List.mem_filter.mp hy
    obtain ⟨i,hi⟩ := List.get_of_mem hymem
    have hiset : typeAt ts i ≠ .unset := by
      rw [typeAt_of_lt i.isLt,hi]
      simpa using hyset
    have hin : ∀ {i}, typeAt ts i ≠ .unset → start ≤ i ∧ i < stop := fun {i} h => by
      by_contra hout
      exact h (hw i (by omega))
    have hstop : start+(stop-start) = stop := by
      have := hin hiset
      omega
    rw [hstop] at hbest
    set idx := (findSmallest ts (stop-start) start (.unset,0)).2 with hidx
    rcases hbest with ⟨_,hall⟩ | ⟨hr,hs,hlt,ht,hmin,hfirst⟩
    · exact absurd (hall i (hin hiset).1 (hin hiset).2) hiset
    rw [← hidx] at hs hlt ht hfirst
    have hxset : typeAt ts idx ≠ .unset := ht ▸ hr
    have hlen : idx < ts.length := lt_of_typeAt hxset
    set x := ts.get ⟨idx,hlen⟩ with hx
    have hxt : x.type = typeAt ts idx := (typeAt_of_lt hlen).symm
    have hget : ts.getD idx {} = x := by simp [hx,hlen]
    have hsplit : ts = ts.take idx ++ x::ts.drop (idx+1) := by
      rw [hx,List.get_eq_getElem,← List.drop_eq_getElem_cons hlen,List.take_append_drop]
    have hset : ts.set idx { x with type := .unset } =
        ts.take idx ++ { x with type := .unset }::ts.drop (idx+1) := List.set_eq_take_append_cons_drop ▸ by
      simp [hlen]
    have hleft : left ts = left (ts.take idx) ++ x::left (ts.drop (idx+1)) := by
      conv_lhs => rw [hsplit]
      simp [left,hxt,hxset]
    have hleft' : left (ts.set idx { x with type := .unset }) =
        left (ts.take idx) ++ left (ts.drop (idx+1)) := by
      rw [hset]
      simp [left]
    have hA : ∀ a ∈ left (ts.take idx), x.type.code < a.type.code := by
      intro a ha
      obtain ⟨hmem,haset⟩ := List.mem_filter.mp ha
      obtain ⟨k,hk,rfl⟩ := List.mem_take_iff_getElem.mp hmem
      have hkl : k < ts.length := by omega
      have hkt : typeAt ts k = (ts[k]).type := typeAt_of_lt hkl
      have hkset : typeAt ts k ≠ .unset := by simpa [hkt] using haset
      rw [hxt,ht,← hkt]
      exact hfirst k (hin hkset).1 (by omega) hkset
    have hB : ∀ b ∈ left (ts.drop (idx+1)), x.type.code ≤ b.type.code := by
      intro b hb
      obtain ⟨hmem,hbset⟩ := List.mem_filter.mp hb
      obtain ⟨k,hk,rfl⟩ := List.mem_drop_iff_getElem.mp hmem
      have hkt : typeAt ts (idx+1+k) = (ts[idx+1+k]).type := typeAt_of_lt (by omega)
      have hkset : typeAt ts (idx+1+k) ≠ .unset := by simpa [hkt] using hbset
      rw [hxt,ht,← hkt]
      exact hmin _ (hin hkset).1 (hin hkset).2 hkset
    have hw' : Window (ts.set idx { x with type := .unset }) (if idx = start then start+1 else start)
        (if idx+1 = stop then stop-1 else stop) := by
      intro k hk
      rw [typeAt_set _ _ _ _ hlen]
      split_ifs with hki
      · rfl
      · refine hw k ?_
        split_ifs at hk <;> omega
    have hn' : (left (ts.set idx { x with type := .unset })).length = n := by
      rw [hleft] at hn
      rw [hleft']
      simp at hn ⊢
      omega
    have hrest := ih _ _ _ hn' hw'
    rw [hleft'] at hrest
    rw [hleft]
    simp only [sortLoop,← hidx,hget]
    exact Sorts.select hA hB hrest

/-- `sort_token` sorts the tokens by type and keeps those of one type in order. -/
theorem sortToken_sorts (ts : List KeyToken) (h : ∀ t ∈ ts, t.type ≠ .unset) :
    Sorts (fun t : KeyToken => t.type.code) ts (sortToken ts) := by
  have hleft : left ts = ts := List.filter_eq_self.mpr fun t ht => by simpa using h t ht
  have hw : Window ts 0 ts.length := fun i hi => by
    by_contra hne
    have := lt_of_typeAt hne
    omega
  have := sortLoop_sorts ts.length ts 0 ts.length (by rw [hleft]) hw
  rwa [hleft] at this

end Rules
end Udev
