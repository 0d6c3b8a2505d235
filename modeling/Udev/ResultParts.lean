import Udev.Decimal
import Udev.FormatScan
import Udev.WordTails

/-! The parts of a program result: `%c{N}` and `%c{N+}`. The number is read into an `int`,
the result is copied to a buffer of limited size, words are skipped at white space of any
kind, and the part is cut at a space. -/
namespace Udev
namespace Rules

open CString Text WordTails

def partNumber (n : ℕ) : CString := Decimal.decimalDigits (n+1) n

/-- What follows the number in the attribute of "N+". -/
def plusSign (plus : Bool) : CString := if plus then str "+" else []

def partAttr (n : ℕ) (plus : Bool) : CString := partNumber n ++ plusSign plus

/-- The number as the `int` that `strtoul` leaves it in. -/
def partIndex (n : ℕ) : ℤ := toInt32 (min n (2^64-1) : ℕ)

theorem lt_pow_succ (n : ℕ) : n < 10^(n+1) := (Nat.lt_pow_self (by omega)).trans (Nat.pow_lt_pow_succ (by omega))

theorem partNumber_isDigit (n : ℕ) : ∀ c ∈ partNumber n, Decimal.IsDigit c :=
  Decimal.decimalDigits_isDigit (n+1) n

theorem partNumber_ne_nil (n : ℕ) : partNumber n ≠ [] := by simp [partNumber,Decimal.decimalDigits]

theorem digits_plusSign (acc : ℕ) (plus : Bool) : digits 10 acc (plusSign plus) = (acc,plusSign plus) := by
  cases plus <;> rfl

theorem number_partAttr (n : ℕ) (plus : Bool) : number 10 (partAttr n plus) = (false,n,plusSign plus) := by
  obtain ⟨c,s,hs⟩ := List.exists_cons_of_ne_nil (partNumber_ne_nil n)
  have hc : Decimal.IsDigit c := partNumber_isDigit n c (by rw [hs]; exact List.mem_cons_self)
  obtain ⟨hspace,hminus,hplus⟩ := hc.plain
  have hattr : partAttr n plus = c::(s ++ plusSign plus) := by rw [partAttr,hs,List.cons_append]
  have hdigits : digits 10 0 (partAttr n plus) = (n,plusSign plus) := by
    rw [partAttr,Decimal.digits_append (partNumber_isDigit n),digits_plusSign]
    rw [partNumber,Decimal.foldl_decimalDigits (lt_pow_succ n)]
  have hdrop : (partAttr n plus).dropWhile isspace = partAttr n plus := by
    rw [hattr,List.dropWhile_cons_of_neg (by simp [hspace])]
  have hhead : charAt (partAttr n plus) 0 = c := by rw [hattr]; rfl
  have hlen : (plusSign plus).length ≠ (partAttr n plus).length := by
    rw [hattr,List.length_cons,List.length_append]
    omega
  unfold number
  simp [hdrop,hhead,hminus,hplus,hdigits,hlen]

theorem strtoul_partAttr (n : ℕ) (plus : Bool) :
    strtoul 10 (partAttr n plus) = (min n (2^64-1),plusSign plus) := by
  unfold strtoul
  rw [number_partAttr]
  dsimp only
  rw [if_neg Bool.false_ne_true]
  split_ifs with hbig
  · rw [Nat.min_eq_right (by omega)]
  · rw [Nat.min_eq_left (by omega)]

def partTail (result : CString) (n : ℕ) : Option CString :=
  resultPart ((partIndex n).toNat-1) (result.take (utilPathSize-1))

def partText (result : CString) (n : ℕ) (plus : Bool) : CString :=
  (substResult result (some (partAttr n plus))).flatten

theorem partText_eq (result : CString) (n : ℕ) (plus : Bool) :
    partText result n plus =
      if 0 < partIndex n then
        ((partTail result n).map fun tail => if plus then tail else tail.takeWhile (· ≠ chr ' ')).getD []
      else result := by
  have hcopy : strscpy utilPathSize result = result.take (utilPathSize-1) := strscpy_eq (by decide) result
  have hsign : (charAt (plusSign plus) 0 ≠ chr '+') = (plus = false) := by cases plus <;> decide
  have hindex : toInt32 ((min n (2^64-1) : ℕ) : ℤ) = partIndex n := rfl
  simp only [partText,substResult,Option.getD_some,strtoul_partAttr,hcopy,hsign,hindex,gt_iff_lt,← partTail.eq_1]
  by_cases hpos : 0 < partIndex n
  · rw [if_pos hpos,if_pos hpos]
    cases partTail result n with
    | none => rfl
    | some tail => cases plus <;> simp
  · rw [if_neg hpos,if_neg hpos]
    simp

section Loop

variable {s : CString}

theorem resultPart_succ (k : ℕ) (s : CString) :
    resultPart (k+1) s =
      if (s.dropWhile (!isspace ·)).dropWhile isspace = [] then none
      else resultPart k ((s.dropWhile (!isspace ·)).dropWhile isspace) := rfl

/-- The loop passes over a word or over white space before the first one. -/
theorem resultPart_word {c : UInt8} (hc : isspace c = false) (s : CString) (k : ℕ) :
    resultPart k (c::s) = (wordTails isspace (c::s))[k]? := by
  induction k generalizing c s with
  | zero => rw [wordTails_cons hc]; rfl
  | succ k ih =>
    have hskip : (c::s).dropWhile (!isspace ·) = s.dropWhile (!isspace ·) :=
      List.dropWhile_cons_of_pos (by simp [hc])
    rw [resultPart_succ,wordTails_cons hc,List.getElem?_cons_succ,hskip,← wordTails_dropWhile]
    cases hrest : (s.dropWhile (!isspace ·)).dropWhile isspace with
    | nil => rfl
    | cons b t =>
      have hb : isspace b = false := by
        have hne : (s.dropWhile (!isspace ·)).dropWhile isspace ≠ [] := by simp [hrest]
        have hhead := List.head_dropWhile_not isspace hne
        simpa [hrest] using hhead
      rw [if_neg (List.cons_ne_nil b t),ih hb]

theorem resultPart_space {c : UInt8} (hc : isspace c = true) (s : CString) (k : ℕ) :
    resultPart (k+1) (c::s) = (wordTails isspace (c::s))[k]? := by
  rw [resultPart_succ,List.dropWhile_cons_of_neg (by simp [hc]),← wordTails_dropWhile]
  cases hrest : (c::s).dropWhile isspace with
  | nil => rfl
  | cons b t =>
    have hb : isspace b = false := by
      have hne : (c::s).dropWhile isspace ≠ [] := by simp [hrest]
      have hhead := List.head_dropWhile_not isspace hne
      simpa [hrest] using hhead
    rw [if_neg (List.cons_ne_nil b t),resultPart_word hb]

end Loop

def nthWord (result : CString) (n : ℕ) : CString := ((words isspace result)[n-1]?).getD []

def fromNthWord (result : CString) (n : ℕ) : CString := ((wordTails isspace result)[n-1]?).getD []

def EndsAtSpace (tail : CString) : Prop := ∀ c, tail.find? isspace = some c → c = chr ' '

theorem takeWhile_space_iff (tail : CString) :
    tail.takeWhile (· ≠ chr ' ') = tail.takeWhile (!isspace ·) ↔ EndsAtSpace tail := by
  induction tail with
  | nil => simp [EndsAtSpace]
  | cons c tail ih =>
    have hblank : isspace (chr ' ') = true := by decide
    by_cases hc : c = chr ' '
    · subst hc
      simp [EndsAtSpace,hblank]
    · cases hspace : isspace c with
      | true => simp [EndsAtSpace,hspace,hc]
      | false =>
        have hends : EndsAtSpace (c::tail) ↔ EndsAtSpace tail := by simp [EndsAtSpace,hspace]
        rw [hends,← ih]
        simp [hspace,hc]

def keptResult (result : CString) : CString := result.take (utilPathSize-1)

theorem partIndex_eq {n : ℕ} (h : n < 16384) : partIndex n = n := by
  rw [partIndex,Nat.min_eq_left (by omega)]
  exact Decimal.toInt32_eq (by omega) (by omega)

section Part

variable {result s : CString} {n : ℕ} {c : UInt8}

theorem partTail_word (hc : isspace c = false) (s : CString) :
    partTail (c::s) n = (wordTails isspace (keptResult (c::s)))[(partIndex n).toNat-1]? :=
  resultPart_word hc _ _

theorem partTail_space (hc : isspace c = true) (s : CString) (hpos : 1 < partIndex n) :
    partTail (c::s) n = (wordTails isspace (keptResult (c::s)))[(partIndex n).toNat-2]? := by
  have hsucc : (partIndex n).toNat-1 = (partIndex n).toNat-2+1 := by omega
  rw [partTail,hsucc]
  exact resultPart_space hc _ _

theorem partTail_first (hpos : partIndex n = 1) : partTail result n = some (keptResult result) := by
  rw [partTail,hpos]
  rfl

theorem tail_ne_nil {s tail : CString} {k : ℕ} (h : (wordTails isspace s)[k]? = some tail) :
    ∃ c cs, tail = c::cs ∧ isspace c = false :=
  (mem_tailsFrom (List.mem_of_getElem? h)).2

theorem partTail_ne_nil {tail : CString} (hresult : result ≠ []) (hpos : 0 < partIndex n)
    (h : partTail result n = some tail) : tail ≠ [] := by
  cases result with
  | nil => exact absurd rfl hresult
  | cons c s =>
    cases hc : isspace c with
    | false =>
      rw [partTail_word hc] at h
      obtain ⟨b,t,rfl,-⟩ := tail_ne_nil h
      exact List.cons_ne_nil b t
    | true =>
      by_cases hone : partIndex n = 1
      · rw [partTail_first hone] at h
        exact Option.some.inj h ▸ List.cons_ne_nil c _
      · rw [partTail_space hc s (by omega)] at h
        obtain ⟨b,t,rfl,-⟩ := tail_ne_nil h
        exact List.cons_ne_nil b t

def PartsRight (result : CString) (n : ℕ) : Prop :=
  partText result n false = nthWord result n ∧ partText result n true = fromNthWord result n

/-- The parts are right when the loop comes to the word and its end is a space. -/
theorem partsRight_iff_tail (hresult : result ≠ []) (hpos : 0 < partIndex n) :
    PartsRight result n ↔ partTail result n = (wordTails isspace result)[n-1]? ∧
      ∀ tail, (wordTails isspace result)[n-1]? = some tail → EndsAtSpace tail := by
  have hword : nthWord result n = ((wordTails isspace result)[n-1]?.map (·.takeWhile (!isspace ·))).getD [] := by
    rw [nthWord,← map_wordTails,List.getElem?_map]
  rw [PartsRight,partText_eq,partText_eq,if_pos hpos,if_pos hpos,hword,fromNthWord]
  cases htail : partTail result n with
  | none =>
    cases hfound : (wordTails isspace result)[n-1]? with
    | none => simp
    | some u =>
      obtain ⟨b,t,rfl,-⟩ := tail_ne_nil hfound
      simp
  | some x =>
    have hx := partTail_ne_nil hresult hpos htail
    cases hfound : (wordTails isspace result)[n-1]? with
    | none => simp [hx]
    | some u =>
      simp only [Option.map_some,Option.getD_some,Option.some.injEq,forall_eq',Bool.false_eq_true,if_false,if_true]
      rw [and_comm]
      refine and_congr_right fun hxu => ?_
      rw [hxu]
      exact takeWhile_space_iff u

/-- A result without white space before its first word: the loop comes to the word if the
buffer keeps it, and the rest of the result is kept only as a whole. -/
theorem partTail_iff_word (hn : 0 < n) (hlen : (c::s).length < 16384) (hc : isspace c = false)
    (hpos : 0 < partIndex n) :
    partTail (c::s) n = (wordTails isspace (c::s))[n-1]? ↔
      if (wordTails isspace (c::s)).length < n then
        ((wordTails isspace (keptResult (c::s))).length : ℤ) < partIndex n
      else (c::s).length < utilPathSize := by
  rw [partTail_word hc]
  split_ifs with hfew
  · rw [List.getElem?_eq_none (by omega : (wordTails isspace (c::s)).length ≤ n-1),List.getElem?_eq_none_iff]
    omega
  · have hle : (wordTails isspace (c::s)).length ≤ (c::s).length := tailsFrom_length true _
    obtain ⟨u,hu⟩ : ∃ u, (wordTails isspace (c::s))[n-1]? = some u :=
      ⟨_,List.getElem?_eq_getElem (by omega)⟩
    obtain ⟨b,t,hcons,-⟩ := tail_ne_nil hu
    have hupos : 0 < u.length := by rw [hcons]; exact Nat.succ_pos _
    have hule : u.length ≤ (c::s).length := (mem_tailsFrom (List.mem_of_getElem? hu)).1.length_le
    have hkept : (wordTails isspace (keptResult (c::s)))[(partIndex n).toNat-1]? =
        if (c::s).length < u.length+(utilPathSize-1) then
          some (u.take (u.length+(utilPathSize-1)-(c::s).length)) else none := by
      have htake := tailsFrom_take true (c::s) (utilPathSize-1) (n-1) (p := isspace)
      rw [partIndex_eq (by omega),Int.toNat_natCast]
      exact htake.trans (by rw [← wordTails,hu,Option.bind_some])
    rw [hkept,hu]
    unfold utilPathSize at *
    split_ifs with hin
    · rw [Option.some.injEq,List.take_eq_self_iff]
      omega
    · simp only [false_iff]
      omega

end Part

/-- The conditions under which both forms of a part are right: an empty result; or a number
that is positive as an `int` and a result without white space before its first word, which
has too few words, in the buffer too, or fits the buffer with its word ended by a space; or
a result with white space before its first word that has too few words, the buffer one
less, or whose buffer repeats the words of the result one word earlier. -/
def PartsExact (result : CString) (n : ℕ) : Prop :=
  let found := wordTails isspace result
  let kept := wordTails isspace (keptResult result)
  result = [] ∨ 0 < partIndex n ∧
    if isspace (charAt result 0) then
      1 < partIndex n ∧
        (found.length < n ∧ (kept.length : ℤ)+1 < partIndex n ∨
          ∃ tail, found[n-1]? = some tail ∧ kept[n-2]? = some tail ∧ EndsAtSpace tail)
    else
      found.length < n ∧ (kept.length : ℤ) < partIndex n ∨
        ∃ tail, found[n-1]? = some tail ∧ result.length < utilPathSize ∧ EndsAtSpace tail

theorem few_or_tail (l : List CString) {n : ℕ} (hn : 0 < n) : l.length < n ∧ l[n-1]? = none ∨
    ¬l.length < n ∧ ∃ tail, l[n-1]? = some tail := by
  by_cases hfew : l.length < n
  · exact Or.inl ⟨hfew,List.getElem?_eq_none (by omega)⟩
  · exact Or.inr ⟨hfew,_,List.getElem?_eq_getElem (by omega)⟩

theorem partText_nil (n : ℕ) (plus : Bool) : partText [] n plus = [] := by
  rw [partText_eq,ite_eq_right_iff]
  intro _
  cases hk : (partIndex n).toNat-1 with
  | zero => cases plus <;> simp [partTail,hk,resultPart]
  | succ k => cases plus <;> simp [partTail,hk,resultPart]

/-- A number that is not positive as an `int` is at least 2^31, and the result has fewer words. -/
theorem not_partsRight_large {c : UInt8} {s : CString} {n : ℕ} (hlen : (c::s).length < 16384) (hn : 0 < n)
    (hpos : ¬0 < partIndex n) : ¬PartsRight (c::s) n := by
  have hbig : 16384 ≤ n := by
    by_contra hsmall
    rw [partIndex_eq (by omega)] at hpos
    omega
  have hfound : (wordTails isspace (c::s)).length ≤ (c::s).length := tailsFrom_length true _
  have hnone : (wordTails isspace (c::s))[n-1]? = none := List.getElem?_eq_none (by omega)
  intro hright
  have hplus := hright.2
  rw [partText_eq,if_neg hpos,fromNthWord,hnone] at hplus
  cases hplus

theorem partsRight_iff {result : CString} (hlen : result.length < 16384) {n : ℕ} (hn : 0 < n) :
    PartsRight result n ↔ PartsExact result n := by
  cases result with
  | nil =>
    exact iff_of_true ⟨partText_nil n false,partText_nil n true⟩ (Or.inl rfl)
  | cons c s =>
    by_cases hpos : 0 < partIndex n
    swap
    · refine iff_of_false (not_partsRight_large hlen hn hpos) fun hexact => ?_
      rcases hexact with hnil | hand
      · cases hnil
      · exact hpos hand.1
    rw [partsRight_iff_tail (List.cons_ne_nil c s) hpos,PartsExact]
    simp only [reduceCtorEq,false_or,hpos,true_and]
    have hhead : charAt (c::s) 0 = c := rfl
    rw [hhead]
    cases hc : isspace c with
    | false =>
      rw [partTail_iff_word hn hlen hc hpos,if_neg Bool.false_ne_true]
      rcases few_or_tail (wordTails isspace (c::s)) hn with ⟨hfew,hnone⟩ | ⟨hfew,tail,htail⟩
      · simp [hfew,hnone]
      · simp [hfew,htail]
    | true =>
      rw [if_pos rfl]
      by_cases hone : partIndex n = 1
      · rw [partTail_first hone]
        refine iff_of_false (fun hand => ?_) fun hand => ?_
        · obtain ⟨b,t,hcons,hb⟩ := tail_ne_nil hand.1.symm
          obtain ⟨rfl,-⟩ := List.cons.inj (show c::s.take (utilPathSize-2) = b::t from hcons)
          rw [hc] at hb
          cases hb
        · omega
      · rw [partTail_space hc s (by omega)]
        rcases few_or_tail (wordTails isspace (c::s)) hn with ⟨hfew,hnone⟩ | ⟨hfew,tail,htail⟩
        · simp only [hfew,hnone,true_and,reduceCtorEq,false_implies,implies_true,and_true,false_and,exists_false,
            or_false,List.getElem?_eq_none_iff]
          omega
        · have hfound : (wordTails isspace (c::s)).length ≤ (c::s).length := tailsFrom_length true _
          have hindex : (partIndex n).toNat = n := by
            rw [partIndex_eq (by omega),Int.toNat_natCast]
          have hlt : 1 < partIndex n := by omega
          simp [hfew,htail,hindex,hlt]

section Expand

variable {σ : Type} (h : Host σ) (s : σ) (ev : Event)

/-- The text that `%c` with a part expands to when the program had the result. -/
def expandPart (result : CString) (n : ℕ) (plus : Bool) (size : ℕ) : CString :=
  (applyFormat h s { ev with programResult := some result }
    (chr '%'::chr 'c'::chr '{'::(partAttr n plus ++ [chr '}'])) size).1

theorem resultPart_suffix {k : ℕ} {r tail : CString} (hpart : resultPart k r = some tail) : tail <:+ r := by
  induction k generalizing r with
  | zero => exact Option.some.inj hpart ▸ List.suffix_refl r
  | succ k ih =>
    rw [resultPart_succ] at hpart
    split_ifs at hpart
    exact (ih hpart).trans ((List.dropWhile_suffix _).trans (List.dropWhile_suffix _))

theorem partText_length (result : CString) (n : ℕ) (plus : Bool) :
    (partText result n plus).length ≤ result.length := by
  rw [partText_eq]
  by_cases hpos : 0 < partIndex n
  · rw [if_pos hpos]
    cases htail : partTail result n with
    | none => exact Nat.zero_le _
    | some tail =>
      have htake : tail.length ≤ result.length :=
        (resultPart_suffix htail).length_le.trans (List.take_prefix _ result).length_le
      cases plus with
      | false => exact (List.takeWhile_prefix (· ≠ chr ' ')).length_le.trans htake
      | true => exact htake
  · rw [if_neg hpos]

theorem brace_partAttr (n : ℕ) (plus : Bool) : chr '}' ∉ partAttr n plus := by
  intro hmem
  rcases List.mem_append.mp hmem with hdigit | hsign
  · have hrange := partNumber_isDigit n _ hdigit
    exact absurd hrange.2 (by decide)
  · cases plus
    · exact absurd hsign List.not_mem_nil
    · exact absurd hsign (by decide)

theorem substAt_result (tail : CString) : substAt (chr '%'::chr 'c'::tail) = some (.result,tail) := by
  rw [substAt_cons,if_neg fun hdollar => absurd hdollar.1 (by decide),if_pos ⟨rfl,(by decide : chr 'c' ≠ chr '%')⟩]
  rfl

/-- A part expands to its text unless its number is too long for the attribute. -/
theorem expandPart_eq {result : CString} {size : ℕ} (hsize : result.length < size) (n : ℕ) (plus : Bool) :
    expandPart h s ev result n plus size =
      if (partAttr n plus).length < utilPathSize then partText result n plus else [] := by
  have hat := substAt_result (chr '{'::(partAttr n plus ++ [chr '}']))
  have hfits : strscpyl size (substResult result (some (partAttr n plus))) = partText result n plus := by
    have hlen := (partText_length result n plus).trans_lt hsize
    rw [partText] at hlen ⊢
    exact strscpyl_fits hlen
  have hvalue : substValue h s { ev with programResult := some result } (some (partAttr n plus)) .result =
      substResult result (some (partAttr n plus)) := by
    rw [substValue,Option.elim_some]
  rw [expandPart,applyFormat,List.length_cons,formatLoop_subst _ _ _ hat,substAttr_braces (brace_partAttr n plus)]
  by_cases hlen : (partAttr n plus).length < utilPathSize
  · rw [if_pos hlen,if_pos hlen,← hfits]
    dsimp only
    rw [formatLoop_end,hvalue,strscpyl]
  · rw [if_neg hlen,if_neg hlen]

theorem decimalDigits_length_le {fuel n k : ℕ} (hk : 0 < k) (hn : n < 10^k) :
    (Decimal.decimalDigits fuel n).length ≤ k := by
  induction fuel generalizing n k with
  | zero => exact Nat.zero_le _
  | succ fuel ih =>
    obtain ⟨k,rfl⟩ : ∃ j, k = j+1 := ⟨k-1,by omega⟩
    rw [Decimal.decimalDigits,List.length_append,List.length_singleton]
    split_ifs with hsmall
    · exact Nat.succ_le_succ (Nat.zero_le _)
    · rw [pow_succ] at hn
      have hdiv : n/10 < 10^k := by omega
      cases k with
      | zero => omega
      | succ k => exact Nat.succ_le_succ (ih (Nat.succ_pos k) hdiv)

theorem partIndex_long {n : ℕ} (h : 1000 ≤ (partNumber n).length) : 16384 ≤ n ∧ ¬0 < partIndex n := by
  have hbig : 10^20 ≤ n := by
    by_contra hlt
    have hle : (partNumber n).length ≤ 20 := decimalDigits_length_le (by omega) (by omega)
    omega
  refine ⟨by omega,?_⟩
  rw [partIndex,Nat.min_eq_right (by omega)]
  decide

/-- The two forms expand to the word and to the text from the word on. -/
def ExpandsToWords (result : CString) (n size : ℕ) : Prop :=
  expandPart h s ev result n false size = nthWord result n ∧
    expandPart h s ev result n true size = fromNthWord result n

/-- The parts of a result are its words exactly when the number does not fit the attribute
or the conditions of `PartsExact` hold. -/
theorem result_parts_iff {result : CString} (hlen : result.length < 16384) {n : ℕ} (hn : 0 < n) {size : ℕ}
    (hsize : result.length < size) :
    ExpandsToWords h s ev result n size ↔ utilPathSize ≤ (partNumber n).length ∨ PartsExact result n := by
  have hfalse : (partAttr n false).length = (partNumber n).length := by
    rw [partAttr,List.length_append]
    rfl
  have htrue : (partAttr n true).length = (partNumber n).length+1 := by
    rw [partAttr,List.length_append]
    rfl
  rw [ExpandsToWords,expandPart_eq h s ev hsize,expandPart_eq h s ev hsize,hfalse,htrue]
  by_cases hshort : (partNumber n).length+1 < utilPathSize
  · rw [if_pos (by omega),if_pos hshort,or_iff_right (by omega)]
    exact partsRight_iff hlen hn
  · obtain ⟨hbig,hneg⟩ := partIndex_long (n := n) (by unfold utilPathSize at hshort; omega)
    have hfound : (wordTails isspace result).length ≤ result.length := tailsFrom_length true _
    have hrest : fromNthWord result n = [] := by
      rw [fromNthWord,List.getElem?_eq_none (by omega)]
      rfl
    have hword : nthWord result n = [] := by
      rw [nthWord,← map_wordTails,List.getElem?_eq_none (by rw [List.length_map]; omega)]
      rfl
    rw [if_neg hshort,hrest,hword,and_iff_left rfl]
    split_ifs with hfits
    · rw [partText_eq,if_neg hneg,or_iff_right (by omega),PartsExact]
      simp [hneg]
    · exact iff_of_true rfl (Or.inl (by omega))

end Expand

theorem result_parts_two :
    (str "a bc d").length < 16384 ∧ 0 < 2 ∧ (str "a bc d").length < utilPathSize ∧
    (ExpandsToWords emptyHost () partEvent (str "a bc d") 2 utilPathSize ↔
      utilPathSize ≤ (partNumber 2).length ∨ PartsExact (str "a bc d") 2) :=
  ⟨by decide,by decide,by decide,
    result_parts_iff emptyHost () partEvent (by decide) (by decide) (by decide)⟩

/-- The first part of a result that begins with a space is empty. -/
theorem leading_space_counts : ¬ExpandsToWords emptyHost () partEvent (str " a") 1 utilPathSize := by
  have hexpand : expandPart emptyHost () partEvent (str " a") 1 false utilPathSize = [] := by decide +kernel
  have hword : nthWord (str " a") 1 = str "a" := by decide +kernel
  rintro ⟨hfirst,-⟩
  rw [hexpand,hword] at hfirst
  cases hfirst

end Rules
end Udev
