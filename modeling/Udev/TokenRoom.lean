import Udev.KeyTable
import Udev.LineParse

/-! The room for the tokens of a rule: `rule_add_key` writes to the slot `token_cur` and says only
afterwards that the array is full, and most keys do not look at what it says. -/
namespace Udev
namespace TokenRoom

open CString RuleLine Rules RoundTrip

open scoped List

/-- The indices of the slots that are written until the loop of `add_rule` ends. -/
def writes (o : Options) : RuleTmp → List KeyPair → List ℕ
  | _, [] => []
  | tmp, p::ps =>
    match addKey o p with
    | none => []
    | some e =>
      List.range' tmp.token.length e.tokens.length ++
        if e.checked ∧ (tmp.apply e).token.length ≥ maxTk then [] else writes o (tmp.apply e) ps

def lineWrites (o : Options) (line : CString) : List ℕ := writes o {} (linePairs line)

def tokensOf (o : Options) (p : KeyPair) : ℕ := (addKey o p).elim 0 (·.tokens.length)

def needed (o : Options) (ps : List KeyPair) : ℕ := (ps.map (tokensOf o)).sum

/-- After `n` tokens a key is refused before the array overflows, or an ENV key takes the last slot. -/
def StopsInTime (o : Options) (n : ℕ) (ps : List KeyPair) : Prop :=
  ∃ pre p post, ps = pre ++ p::post ∧ n+needed o pre ≤ maxTk ∧
    (Refused p ∨ str "ENV\x7b" <+: p.key ∧ n+needed o (pre ++ [p]) = maxTk)

section Run

variable {o : Options} {tmp : RuleTmp} {p : KeyPair} {ps : List KeyPair} {e : KeyEffect}

theorem needed_cons : needed o (p::ps) = tokensOf o p+needed o ps := by simp [needed]

theorem tokensOf_some (h : addKey o p = some e) : tokensOf o p = e.tokens.length := by rw [tokensOf,h,Option.elim_some]

theorem apply_length : (tmp.apply e).token.length = tmp.token.length+e.tokens.length := List.length_append

theorem stopsInTime_cons {n : ℕ} : StopsInTime o n (p::ps) ↔
    n ≤ maxTk ∧ (Refused p ∨ str "ENV\x7b" <+: p.key ∧ n+tokensOf o p = maxTk) ∨
      StopsInTime o (n+tokensOf o p) ps := by
  constructor
  · rintro ⟨pre,q,post,heq,hroom,hstop⟩
    cases pre with
    | nil =>
      obtain ⟨rfl,-⟩ := List.cons.inj heq
      exact Or.inl ⟨by simpa [needed] using hroom,by simpa [needed] using hstop⟩
    | cons p' pre =>
      obtain ⟨rfl,rfl⟩ := List.cons.inj heq
      rw [List.cons_append,needed_cons,← Nat.add_assoc] at hstop
      rw [needed_cons,← Nat.add_assoc] at hroom
      exact Or.inr ⟨pre,q,post,rfl,hroom,hstop⟩
  · rintro (⟨hroom,hstop⟩ | ⟨pre,q,post,rfl,hroom,hstop⟩)
    · exact ⟨[],p,ps,rfl,by simpa [needed] using hroom,by simpa [needed] using hstop⟩
    · refine ⟨p::pre,q,post,rfl,?_,?_⟩
      · rw [needed_cons,← Nat.add_assoc]
        exact hroom
      · rw [List.cons_append,needed_cons,← Nat.add_assoc]
        exact hstop

theorem mem_range'_lt {n t : ℕ} (h : n ≤ maxTk) : (∀ i ∈ List.range' n t, i < maxTk) ↔ n+t ≤ maxTk := by
  simp only [List.mem_range'_1]
  constructor
  · intro hall
    by_contra hover
    have := hall (n+t-1) (by omega)
    omega
  · intro hroom i hi
    omega

theorem not_refused (h : addKey o p = some e) : ¬Refused p := by
  rw [← addKey_eq_none_iff (o := o),h]
  exact Option.some_ne_none e

theorem stops_iff (h : tmp.token.length ≤ maxTk) :
    (∀ i ∈ writes o tmp ps, i < maxTk) ∧ addPairs o tmp ps = none ↔ StopsInTime o tmp.token.length ps := by
  induction ps generalizing tmp with
  | nil => simp [addPairs,StopsInTime]
  | cons p ps ih =>
    rw [stopsInTime_cons]
    cases hadd : addKey o p with
    | none =>
      have hrefused : Refused p := addKey_eq_none_iff.mp hadd
      simp [writes,addPairs,addPair,hadd,h,hrefused]
    | some e =>
      have hnot := not_refused hadd
      simp only [writes,addPairs,addPair,hadd,Option.bind_some,or_iff_right hnot,tokensOf_some hadd,
        List.forall_mem_append,mem_range'_lt h,apply_length]
      by_cases hfull : e.checked = true ∧ tmp.token.length+e.tokens.length ≥ maxTk
      · obtain ⟨hlen,henv⟩ := (takenFew_addKey o p e hadd).checked hfull.1
        simp only [if_pos hfull,List.not_mem_nil,false_imp_iff,implies_true,and_true,Option.bind_none]
        constructor
        · intro hroom
          exact Or.inl ⟨h,henv,Nat.le_antisymm hroom hfull.2⟩
        · rintro (⟨-,-,heq⟩ | ⟨pre,q,post,-,hroom,-⟩)
          · exact heq.le
          · omega
      · have henv : ¬(str "ENV\x7b" <+: p.key ∧ tmp.token.length+e.tokens.length = maxTk) := fun henv =>
          hfull ⟨addKey_env_checked henv.1 hadd,henv.2.ge⟩
        rw [or_iff_right fun hor => henv hor.2]
        simp only [if_neg hfull,Option.bind_some]
        by_cases hroom : tmp.token.length+e.tokens.length ≤ maxTk
        · have hrec := @ih (tmp.apply e) (by rw [apply_length]; exact hroom)
          rw [apply_length] at hrec
          rw [and_iff_right hroom,hrec]
        · refine iff_of_false (fun hall => hroom hall.1.1) ?_
          rintro ⟨pre,q,post,-,hroom',-⟩
          omega

theorem writes_lt (h : tmp.token.length+needed o ps ≤ maxTk) : ∀ i ∈ writes o tmp ps, i < maxTk := by
  induction ps generalizing tmp with
  | nil => simp [writes]
  | cons p ps ih =>
    rw [needed_cons] at h
    cases hadd : addKey o p with
    | none => simp [writes,hadd]
    | some e =>
      rw [tokensOf_some hadd] at h
      simp only [writes,hadd,List.forall_mem_append]
      refine ⟨(mem_range'_lt (by omega)).mpr (by omega),?_⟩
      split_ifs
      · simp
      · exact ih (by rw [apply_length]; omega)

end Run

/-- Every write is to a slot of the array, and a line with more tokens than slots is invalid. -/
def Held (o : Options) (line : CString) : Prop :=
  (∀ i ∈ lineWrites o line, i < maxTk) ∧ (maxTk < needed o (linePairs line) → addRule o line = none)

/-- The array holds the tokens of a line, or the loop ends before it overflows; otherwise the token
that is one too many is written behind the array. -/
theorem token_room_iff {o : Options} {line : CString} :
    Held o line ↔ needed o (linePairs line) ≤ maxTk ∨ StopsInTime o 0 (linePairs line) := by
  have hstops : (∀ i ∈ lineWrites o line, i < maxTk) ∧ addRule o line = none ↔ StopsInTime o 0 (linePairs line) := by
    rw [addRule,Option.map_eq_none_iff]
    exact @stops_iff o {} _ (Nat.zero_le _)
  by_cases hfit : needed o (linePairs line) ≤ maxTk
  · refine iff_of_true ⟨@writes_lt o {} _ (by simpa using hfit),fun hover => absurd hfit (not_le.mpr hover)⟩ ?_
    exact Or.inl hfit
  · rw [or_iff_right hfit,← hstops,Held,imp_iff_right (not_le.mp hfit)]

/-- `KERNEL=="a"` after a comma. -/
def kernelA : Item := { before := str ",", key := str "KERNEL", op := .opMatch, value := str "a" }

def kernels (n : ℕ) : CString := (List.replicate n kernelA).flatMap Item.print ++ [chr '\n']

theorem linePairs_kernels (n : ℕ) : linePairs (kernels n) = List.replicate n (pairOf kernelA) := by
  have hitem : kernelA.WellFormed := by decide
  have hitems : ∀ i ∈ List.replicate n kernelA, i.Readable ∧ i.value.getLast? ≠ some (chr '\\') := by
    intro i hi
    rw [List.eq_of_mem_replicate hi]
    exact ⟨hitem.readable,hitem.value_last⟩
  rw [kernels,(linePairs_items hitems rfl).1,List.map_replicate]

theorem kernels_write_outside : ¬∀ (o : Options) (line : CString), Held o line := by
  intro hall
  have hwrites := (hall { accounts := noAccounts } (kernels 65)).1
  rw [lineWrites,linePairs_kernels] at hwrites
  have hmem : 64 ∈ writes { accounts := noAccounts } {} (List.replicate 65 (pairOf kernelA)) := by decide +kernel
  exact absurd (hwrites 64 hmem) (by decide)

/-- The token array after a line, unless a token was written outside of the room for it. -/
def addTo (o : Options) (tokens : List Token) (line : CString) : Option (List Token) :=
  if ∀ i ∈ lineWrites o line, i < maxTk then some (tokens ++ (addRule o line).getD []) else none

/-- A line whose reading stops in the middle leaves the tokens as they were only if a key before
that place ends the loop: the rule of the keys that were read is added otherwise. -/
theorem malformed_line_iff {o : Options} {line : CString} :
    (¬Whole line → ∀ tokens, addTo o tokens line = some tokens) ↔
      Whole line ∨ StopsInTime o 0 (linePairs line) := by
  have hstops : (∀ tokens, addTo o tokens line = some tokens) ↔ StopsInTime o 0 (linePairs line) := by
    refine Iff.trans ?_ (@stops_iff o {} _ (Nat.zero_le _))
    constructor
    · intro hsame
      have hnil := hsame []
      unfold addTo at hnil
      split_ifs at hnil with hroom
      refine ⟨hroom,?_⟩
      cases htmp : addPairs o {} (linePairs line) with
      | none => rfl
      | some tmp => simp [addRule,htmp,ruleBlock] at hnil
    · rintro ⟨hroom,hnone⟩ tokens
      have hroom : ∀ i ∈ lineWrites o line, i < maxTk := hroom
      rw [addTo,if_pos hroom,addRule,hnone]
      simp
  by_cases hwhole : Whole line
  · simp [hwhole]
  · rw [imp_iff_right hwhole,hstops,or_iff_right hwhole]

set_option maxRecDepth 8000 in
theorem open_quote_adds_rule :
    ¬∀ (o : Options) (line : CString), ¬Whole line → ∀ tokens, addTo o tokens line = some tokens := by
  intro hall
  have hnot : ¬Whole (str "KERNEL==\"sda\", NAME=\"x\n") := by decide
  have hsame := hall { accounts := noAccounts } _ hnot []
  have hadds : addTo { accounts := noAccounts } [] (str "KERNEL==\"sda\", NAME=\"x\n") ≠ some [] := by decide +kernel
  exact hadds hsame

end TokenRoom
end Udev
