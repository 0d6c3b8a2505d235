import Udev.Matching

/-! The value of a match key. A value is a list of alternatives, and the class that
`rule_add_key` gives it selects the loop that `match_key` runs. All loops decide the same
question, except that the one for several patterns works on a copy of limited size. -/
namespace Udev
namespace Rules

open CString RuleLine Text

theorem splitOn_append {α : Type*} [DecidableEq α] (a : α) (t r : List α) :
    ∃ whole cut, t.splitOn a = whole ++ [cut] ∧ (t ++ r).splitOn a = whole ++ (cut ++ r).splitOn a := by
  induction t with
  | nil => exact ⟨[],[],rfl,rfl⟩
  | cons b t ih =>
    obtain ⟨whole,cut,ht,hr⟩ := ih
    rw [List.cons_append,List.splitOn_cons_eq_if_modifyHead,List.splitOn_cons_eq_if_modifyHead b (t ++ r),ht,hr]
    by_cases hb : (b == a) = true
    · exact ⟨[]::whole,cut,by rw [if_pos hb]; rfl,by rw [if_pos hb]; rfl⟩
    · rw [if_neg hb,if_neg hb]
      cases whole with
      | nil =>
        refine ⟨[],b::cut,rfl,?_⟩
        rw [List.nil_append,List.nil_append,List.cons_append,List.splitOn_cons_eq_if_modifyHead b (cut ++ r),if_neg hb]
      | cons w whole => exact ⟨(b::w)::whole,cut,rfl,rfl⟩

theorem splitBar_eq (n : ℕ) (s : CString) (h : s.length < n) : splitBar n s = s.splitOn (chr '|') := by
  induction n generalizing s with
  | zero => exact absurd h (Nat.not_lt_zero _)
  | succ n ih =>
    rw [splitBar]
    cases hbar : strchr s (chr '|') with
    | none =>
      have hmem : chr '|' ∉ s := by
        rw [← strchr_isSome,hbar]
        decide
      exact (List.splitOn_eq_singleton hmem).symm
    | some rest =>
      obtain ⟨hs,r,rfl⟩ := strchr_eq_some hbar
      have hfirst : chr '|' ∉ s.takeWhile (· ≠ chr '|') := fun hmem => by
        simpa using List.mem_takeWhile_imp hmem
      have hlen := congrArg List.length hs
      rw [List.length_append,List.length_cons] at hlen
      show s.takeWhile (· ≠ chr '|')::splitBar n r = _
      rw [ih r (by omega)]
      conv_rhs => rw [hs,List.splitOn_append_cons_self_of_not_mem hfirst]

/-- The loops of `match_key` see the pieces between the bars, empty ones too. -/
theorem alternatives_eq (s : CString) : alternatives s = s.splitOn (chr '|') :=
  splitBar_eq _ s (Nat.lt_succ_self _)

variable {σ : Type} (h : Host σ)

/-- Whether an alternative of a value is met by the text: as a pattern, if the value has
a character of a pattern anywhere. -/
def altMatches (value text alt : CString) : Bool :=
  if stringIsGlob value then h.fnmatch alt text else alt = text

def valueMatches (value text : CString) : Bool :=
  (value.splitOn (chr '|')).any (altMatches h value text)

def copiedAlts (value : CString) : List CString :=
  ((value.take (utilPathSize-1)).splitOn (chr '|')).dropLast

def cutAlt (value : CString) : CString :=
  ((value.take (utilPathSize-1)).splitOn (chr '|')).getLastD []

def restAlts (value : CString) : List CString :=
  (value.splitOn (chr '|')).drop (copiedAlts value).length

/-- The copy of a list of patterns decides the match as the value does. -/
def CopyDecides (value text : CString) : Prop :=
  chr '|' ∉ value ∨ stringIsGlob value = false ∨ value.length < utilPathSize ∨
    (∃ alt ∈ copiedAlts value, h.fnmatch alt text = true) ∨
    (h.fnmatch (cutAlt value) text = true ↔ ∃ alt ∈ restAlts value, h.fnmatch alt text = true)

theorem splitOn_copied (value : CString) :
    (value.take (utilPathSize-1)).splitOn (chr '|') = copiedAlts value ++ [cutAlt value] ∧
    value.splitOn (chr '|') = copiedAlts value ++ restAlts value := by
  obtain ⟨whole,cut,hcopy,hall⟩ :=
    splitOn_append (chr '|') (value.take (utilPathSize-1)) (value.drop (utilPathSize-1))
  rw [List.take_append_drop] at hall
  have hwhole : copiedAlts value = whole := by rw [copiedAlts,hcopy,List.dropLast_concat]
  have hcut : cutAlt value = cut := by simp [cutAlt,hcopy]
  refine ⟨by rw [hwhole,hcut,hcopy],?_⟩
  rw [restAlts,hwhole,hall,List.drop_left]

theorem globType_split {value : CString} (hsplit : chr '|' ∈ value) :
    globType value = if stringIsGlob value then .splitGlob else .split := by
  have hbar := strchr_isSome.mpr hsplit
  cases hglob : stringIsGlob value <;> simp [globType,hbar,hglob]

theorem globType_whole {value : CString} (hsplit : chr '|' ∉ value) :
    globType value =
      if stringIsGlob value then if value = str "?*" then .something else .glob else .plain := by
  have hbar : strchr value (chr '|') = none := strchr_eq_none hsplit
  cases hglob : stringIsGlob value <;> simp [globType,hbar,hglob]

section Key

variable {type : TokenType} (htype : type.isMatch = true) (op : Op) (value : CString) (data : KeyData)

include htype

theorem newKey_glob : (newKey type op (some value) data).glob = globType value := if_pos htype

/-- One value is compared as a whole, also the pattern that has a class of its own. -/
theorem matchValue_whole (hany : ∀ s, h.fnmatch (str "?*") s = true ↔ s ≠ []) (hsplit : chr '|' ∉ value)
    (text : CString) : matchValue h (newKey type op (some value) data) text = valueMatches h value text := by
  have hone : valueMatches h value text = altMatches h value text value := by
    rw [valueMatches,List.splitOn_eq_singleton hsplit,List.any_cons,List.any_nil,Bool.or_false]
  rw [hone,matchValue,newKey_glob htype,globType_whole hsplit,altMatches]
  by_cases hglob : stringIsGlob value = true
  · rw [if_pos hglob,if_pos hglob]
    by_cases hv : value = str "?*"
    · rw [if_pos hv,hv]
      exact Bool.eq_iff_iff.mpr (decide_eq_true_iff.trans (hany text).symm)
    · rw [if_neg hv]
      rfl
  · rw [if_neg hglob,if_neg hglob]
    rfl

theorem matchValue_split (hsplit : chr '|' ∈ value) (hglob : stringIsGlob value = false) (text : CString) :
    matchValue h (newKey type op (some value) data) text = valueMatches h value text := by
  rw [matchValue,newKey_glob htype,globType_split hsplit,hglob]
  show (alternatives value).any (· = text) = _
  rw [alternatives_eq,valueMatches]
  refine congrArg _ (funext fun alt => ?_)
  rw [altMatches,hglob]
  rfl

theorem matchValue_splitGlob (hsplit : chr '|' ∈ value) (hglob : stringIsGlob value = true) (text : CString) :
    matchValue h (newKey type op (some value) data) text =
      ((value.take (utilPathSize-1)).splitOn (chr '|')).any (h.fnmatch · text) := by
  rw [matchValue,newKey_glob htype,globType_split hsplit,hglob]
  show (alternatives (strscpy utilPathSize value)).any _ = _
  rw [strscpy_eq (by decide),alternatives_eq]

/-- The class of a value decides what the value says exactly when the copy does. -/
theorem matchValue_iff (hany : ∀ s, h.fnmatch (str "?*") s = true ↔ s ≠ []) (text : CString) :
    matchValue h (newKey type op (some value) data) text = valueMatches h value text ↔
      CopyDecides h value text := by
  by_cases hsplit : chr '|' ∈ value
  swap
  · exact iff_of_true (matchValue_whole h htype op value data hany hsplit text) (Or.inl hsplit)
  cases hglob : stringIsGlob value with
  | false => exact iff_of_true (matchValue_split h htype op value data hsplit hglob text) (Or.inr (Or.inl hglob))
  | true =>
    have hpattern : altMatches h value text = (h.fnmatch · text) := by
      funext alt
      rw [altMatches,if_pos hglob]
    rw [matchValue_splitGlob h htype op value data hsplit hglob,valueMatches,hpattern]
    by_cases hlen : value.length < utilPathSize
    · rw [List.take_of_length_le (by unfold utilPathSize at *; omega)]
      exact iff_of_true rfl (Or.inr (Or.inr (Or.inl hlen)))
    · obtain ⟨hcopy,hall⟩ := splitOn_copied value
      rw [hcopy,hall,CopyDecides,Bool.eq_iff_iff]
      simp only [hsplit,hglob,hlen,List.any_append,List.any_cons,List.any_nil,Bool.or_false,Bool.or_eq_true,
        List.any_eq_true,not_true_eq_false,false_or,Bool.true_eq_false]
      by_cases hcopied : ∃ alt ∈ copiedAlts value, h.fnmatch alt text = true
      · simp only [hcopied,true_or]
      · simp only [hcopied,false_or]

end Key

/-- `match_key` agrees with what the value of the key says about a text. -/
def KeyAgrees (k : KeyToken) (val : Option CString) : Prop :=
  matchKey h k val = true ↔ (k.op = .opMatch ↔ valueMatches h k.value (val.getD []) = true)

/-- `match_key` decides what the value says, with each class of values, exactly when the
copy of a list of patterns decides it. -/
theorem match_key_agrees_iff (hany : ∀ s, h.fnmatch (str "?*") s = true ↔ s ≠ []) {type : TokenType}
    (htype : type.isMatch = true) {op : Op} (hop : op = .opMatch ∨ op = .opNomatch) (value : CString)
    (data : KeyData) (val : Option CString) :
    KeyAgrees h (newKey type op (some value) data) val ↔ CopyDecides h value (val.getD []) := by
  have hunset : globType value ≠ .unset := by
    unfold globType
    dsimp only
    split_ifs <;> simp
  have hkey : matchKey h (newKey type op (some value) data) val = true ↔
      (op = .opMatch ↔ matchValue h (newKey type op (some value) data) (val.getD []) = true) := by
    rw [matchKey,newKey_glob htype]
    rcases hop with rfl | rfl <;>
      cases matchValue h (newKey type _ (some value) data) (val.getD []) <;> simp [hunset,newKey]
  rw [← matchValue_iff h htype op value data hany,KeyAgrees,hkey]
  show ((op = .opMatch ↔ _) ↔ (op = .opMatch ↔ valueMatches h value (val.getD []) = true)) ↔ _
  cases matchValue h (newKey type op (some value) data) (val.getD []) <;>
    cases valueMatches h value (val.getD []) <;> rcases hop with rfl | rfl <;> simp

/-- `fnmatch` for patterns of `*`, `?` and ordinary characters. -/
def simpleMatch : CString → CString → Bool
  | [], s => s = []
  | c::p, s =>
    if c = chr '*' then s.tails.any (simpleMatch p)
    else
      match s with
      | [] => false
      | b::s => (c = chr '?' || c = b) && simpleMatch p s

theorem simpleMatch_something (s : CString) : simpleMatch (str "?*") s = true ↔ s ≠ [] := by
  cases s with
  | nil => decide
  | cons b s =>
    have htail : s.tails.any (simpleMatch []) = true :=
      List.any_eq_true.mpr ⟨[],(List.mem_tails [] s).mpr (List.nil_suffix),rfl⟩
    exact iff_of_true htail (List.cons_ne_nil b s)

def patternHost : Host Unit := { emptyHost with fnmatch := simpleMatch }

theorem match_key_agrees_disks :
    (∀ s, patternHost.fnmatch (str "?*") s = true ↔ s ≠ []) ∧
    (KeyAgrees patternHost (newKey .mKernel .opMatch (some (str "sd*|vd?")) .none) (some (str "vda")) ↔
      CopyDecides patternHost (str "sd*|vd?") (str "vda")) :=
  ⟨simpleMatch_something,
    match_key_agrees_iff patternHost simpleMatch_something rfl (Or.inl rfl) (str "sd*|vd?") .none (some (str "vda"))⟩

/-- A list of patterns whose second one begins behind the copy. -/
def longList : CString := List.replicate 1100 (chr 'a') ++ str "|b*"

/-- The text matches the second pattern, and `match_key` does not see it. -/
theorem second_pattern_lost :
    ¬KeyAgrees patternHost (newKey .mKernel .opMatch (some longList) .none) (some (str "bx")) := by
  have hcode : matchKey patternHost (newKey .mKernel .opMatch (some longList) .none) (some (str "bx")) = false := by
    decide +kernel
  have hvalue : valueMatches patternHost longList (str "bx") = true := by
    decide +kernel
  intro hagrees
  have := hagrees.mpr (iff_of_true rfl hvalue)
  rw [hcode] at this
  cases this

end Rules
end Udev
