import Udev.CheckAgreement
import Udev.ScsiConfig

/-! The main loop of `udevrule` over a file of any lines. Each look at the text and each write into the line, the
clause, the key and the value is checked: the text ends with the terminator that `getdelim` leaves, and the arrays
have `UTIL_LINE_SIZE` bytes. -/
namespace Udev
namespace RuleChecker

open CString CheckRule RuleLine RoundTrip

open ScsiConfig (At)

inductive Fault
  | before | room | stale | overflow
  deriving DecidableEq, Repr

/-- `UTIL_LINE_SIZE` -/
def lineSize : ℕ := 16384

/-- `text[p]` -/
def peek (text : CString) (p : ℕ) : Except Fault UInt8 := if p ≤ text.length then .ok (charAt text p) else .error .stale

/-- `array[i++] = c` -/
def put (array : CString) (c : UInt8) : Except Fault CString :=
  if array.length < lineSize then .ok (array ++ [c]) else .error .overflow

/-- `array[i] = '\0'` -/
def terminate (array : CString) : Except Fault CString := if array.length < lineSize then .ok array else .error .overflow

/-- `while (isspace(*str)) ++str;` for at most `n` bytes. -/
def stripFrom (text : CString) : ℕ → ℕ → Except Fault ℕ
  | 0, _ => .error .stale
  | n+1, p => (peek text p).bind fun c => if isspace c then stripFrom text n (p+1) else .ok p

def strip (text : CString) (p : ℕ) : Except Fault ℕ := stripFrom text (text.length+1-p) p

/-- The loop of `rule_getclause`: the clause, the byte behind it and its place. -/
def clauseFrom (text : CString) : ℕ → ℕ → Bool → CString → Except Fault (CString × UInt8 × ℕ)
  | 0, _, _, _ => .error .stale
  | n+1, p, quoted, clause => (peek text p).bind fun c =>
    if c = chr '\n' ∨ quoted = false ∧ c = chr ',' then (terminate clause).bind fun clause => .ok (clause,c,p)
    else (put clause c).bind fun clause => clauseFrom text n (p+1) (if c = chr '"' then !quoted else quoted) clause

def ruleGetclause (line : CString) (p : ℕ) : Except Fault (CString × UInt8 × ℕ) :=
  clauseFrom line (line.length+1-p) p false []

/-- The first loop of `rule_getkey`: the key and the place behind it. -/
def keyFrom (clause : CString) : ℕ → ℕ → CString → Except Fault (CString × ℕ)
  | 0, _, _ => .error .stale
  | n+1, p, key => (peek clause p).bind fun c =>
    if c = 0 ∨ keyChar c = false then .ok (key,p)
    else (put key c).bind fun key => keyFrom clause n (p+1) key

def ruleGetoper (clause : CString) (p : ℕ) : Except Fault (Option (Op × ℕ)) :=
  (peek clause (p+1)).bind fun c1 => (peek clause p).bind fun c0 => .ok (CheckRule.ruleGetoper [c0,c1])

/-- The loop of `rule_getkey` over the value; a quote behind a backslash is copied without it. -/
def valueFrom (clause : CString) : ℕ → ℕ → CString → Except Fault (CString × ℕ)
  | 0, _, _ => .error .stale
  | n+1, p, value => (peek clause p).bind fun c =>
    if c = 0 ∨ c = chr '"' then .ok (value,p)
    else (if c = chr '\\' then peek clause (p+1) else .ok 0).bind fun next =>
      let p := if c = chr '\\' ∧ next = chr '"' then p+1 else p
      (peek clause p).bind fun c => (put value c).bind fun value => valueFrom clause n (p+1) value

/-- The part of `rule_getkey` behind the opening quote. -/
def getvalue (clause : CString) (p : ℕ) : Except Fault (Except Err CString) :=
  (valueFrom clause (clause.length+1) p []).bind fun r => (peek clause r.2).bind fun c =>
    if c ≠ chr '"' then .ok (.error .quotexp)
    else (peek clause (r.2+1)).bind fun c =>
      if c ≠ 0 then .ok (.error .value)
      else (terminate r.1).bind fun value => .ok (.ok value)

def ruleGetkey (clause : CString) : Except Fault (Except Err (CString × Op × CString)) :=
  (keyFrom clause (clause.length+1) 0 []).bind fun r => (terminate r.1).bind fun key =>
    (strip clause r.2).bind fun p => (peek clause p).bind fun c =>
      if c = 0 then .ok (.error .operexp)
      else (ruleGetoper clause p).bind fun
        | none => .ok (.error .oper)
        | some (op,sz) => (strip clause (p+sz)).bind fun p => (peek clause p).bind fun c =>
          if c = 0 ∨ c ≠ chr '"' then .ok (.error .quotexp)
          else (getvalue clause (p+1)).bind fun r => .ok (r.map fun value => (key,op,value))

def check (clause : CString) : Except Fault ℤ :=
  (ruleGetkey clause).bind fun
    | .error e => .ok (-e.code)
    | .ok (key,op,_) =>
      let res := checkNoArgs key
      let res := if res = 0 then checkNoArgsMatch key op else res
      let res := if res = 0 then checkArgs key else res
      .ok (if res = 0 then checkArgsMatch key op else res)

inductive Report
  | emptyClause (lineno : ℕ) (line : CString)
  | invalid (lineno : ℕ) (line clause : CString) (res : ℤ)
  deriving DecidableEq, Repr

def Report.isInvalid : Report → Bool
  | .emptyClause _ _ => false
  | .invalid _ _ _ _ => true

/-- A clause with a `NUL` in it is checked up to there. -/
def checkClause (lineno : ℕ) (line clause : CString) : Except Fault (List Report) :=
  let clause := clause.takeWhile (· ≠ 0)
  if clause = [] then .ok [.emptyClause lineno line]
  else (check clause).bind fun res => .ok (if res ≤ 0 then [.invalid lineno line clause res] else [])

/-- The loop over the clauses of a line, for at most `n` of them. -/
def clausesFrom (lineno : ℕ) (line : CString) : ℕ → ℕ → Except Fault (List Report)
  | 0, _ => .error .stale
  | n+1, p => (strip line p).bind fun p => (ruleGetclause line p).bind fun r =>
    (checkClause lineno (line.takeWhile (· ≠ 0)) r.1).bind fun reports =>
      if r.2.1 = chr '\n' then .ok reports
      else (clausesFrom lineno line n (r.2.2+1)).bind fun more => .ok (reports ++ more)

/-- One round of the main loop: `getdelim` has read `raw`, and `p` is behind the bytes `pending` of the line. The
result is what is in front of `p` in the next round. -/
def round (lineno : ℕ) (pending raw : CString) : Except Fault (CString × List Report) :=
  -- the size that `getdelim` goes by is not changed with `p`
  if lineSize < pending.length+raw.length+1 then .error .room
  else
    let line := pending ++ raw
    -- p[sz-2]
    if line.length < 2 then .error .before
    else if charAt line (line.length-2) = chr '\\' then .ok (line.take (line.length-2),[])
    else if raw.length < 3 then .ok (pending,[])
    else (strip line 0).bind fun p => (peek line p).bind fun ch =>
      if ch = chr '#' then .ok (line.take p,[])
      else if ch = chr '\n' then .ok ([],[])
      else (clausesFrom lineno line (line.length+1-p) p).bind fun reports => .ok ([],reports)

def rounds : ℕ → CString → List CString → Except Fault (List Report)
  | _, _, [] => .ok []
  | lineno, pending, raw::lines => (round (lineno+1) pending raw).bind fun r =>
    (rounds (lineno+1) r.1 lines).bind fun more => .ok (r.2 ++ more)

/-- What the calls of `getdelim` read one after the other. -/
def rawLines : List UInt8 → List CString
  | [] => []
  | c::file =>
    if c = chr '\n' then [c]::rawLines file
    else
      match rawLines file with
      | [] => [[c]]
      | raw::lines => (c::raw)::lines

/-- What `udevrule` prints about the file, and its exit status. -/
def main (file : List UInt8) : Except Fault (List Report × ℤ) :=
  (rounds 0 [] (rawLines file)).bind fun reports => .ok (reports,if reports.any Report.isInvalid then 1 else 0)

example : main (str "# rules\nKERNEL==\"sd*\", \\\nNAM=\"disk\"\n") =
    .ok ([.invalid 3 (str "KERNEL==\"sd*\", NAM=\"disk\"\n") (str "NAM=\"disk\"") 0],1) := by decide +kernel

theorem ok_bind {α β : Type} (a : α) (g : α → Except Fault β) : (Except.ok a).bind g = g a := rfl

theorem put_ok {array : CString} (h : array.length < lineSize) (c : UInt8) : put array c = .ok (array ++ [c]) := if_pos h

theorem terminate_ok {array : CString} (h : array.length < lineSize) : terminate array = .ok array := if_pos h

section Cursor

variable {text t : CString} {p n : ℕ}

theorem peek_at (h : At text p t) : peek text p = .ok (charAt t 0) := by
  rw [peek,if_pos h.1,← h.2,charAt,charAt,List.getD_eq_getElem?_getD,List.getD_eq_getElem?_getD,List.getElem?_drop,Nat.add_zero]

theorem next_at {c : UInt8} (h : At text p (c::t)) : At text (p+1) t := h.drop (k := 1) (Nat.succ_le_succ (Nat.zero_le _))

theorem charAt_eq_zero (h0 : 0 ∉ t) : charAt t 0 = 0 ↔ t = [] := by
  cases t with
  | nil => exact iff_of_true rfl rfl
  | cons c t => exact iff_of_false (fun hc => h0 (by rw [← show c = 0 from hc]; exact List.mem_cons_self)) (List.cons_ne_nil _ _)

theorem charAt_quote (h : charAt t 0 = chr '"') : ∃ v, t = chr '"'::v := by
  cases t with
  | nil => exact absurd h (by decide)
  | cons c v => exact ⟨v,by rw [← show c = chr '"' from h]⟩

theorem strip_at (h : At text p t) : ∃ q, strip text p = .ok q ∧ At text q (t.dropWhile isspace) := by
  have hfuel : text.length+1-p = t.length+1 := by
    have := h.length
    omega
  rw [strip,hfuel]
  induction t generalizing p with
  | nil =>
    rw [stripFrom,peek_at h]
    exact ⟨p,rfl,h⟩
  | cons c t ih =>
    rw [stripFrom,peek_at h,ok_bind]
    change ∃ q, (if isspace c then stripFrom text (t.length+1) (p+1) else .ok p) = .ok q ∧ _
    by_cases hc : isspace c = true
    · rw [if_pos hc,List.dropWhile_cons_of_pos hc]
      exact ih (next_at h) (by have := (next_at h).length; omega)
    · rw [if_neg hc,List.dropWhile_cons_of_neg hc]
      exact ⟨p,rfl,h⟩

/-- The clause scanner stops at the byte that ends the clause; where there is none it leaves the text. -/
theorem clauseFrom_at (quoted : Bool) (acc : CString) (h : At text p t) (hroom : acc.length+t.length < lineSize) :
    ((getclause quoted t).2 ≠ [] → clauseFrom text (t.length+1) p quoted acc =
        .ok (acc ++ (getclause quoted t).1,charAt (getclause quoted t).2 0,p+(getclause quoted t).1.length)) ∧
      ((getclause quoted t).2 = [] → clauseFrom text (t.length+1) p quoted acc = .error .stale) := by
  induction t generalizing p quoted acc with
  | nil =>
    refine ⟨fun hne => absurd rfl hne,fun _ => ?_⟩
    have hstop : ¬((0 : UInt8) = chr '\n' ∨ quoted = false ∧ (0 : UInt8) = chr ',') := by
      rintro (h | ⟨-,h⟩)
      · exact absurd h (by decide)
      · exact absurd h (by decide)
    rw [clauseFrom,peek_at h,ok_bind,show charAt [] 0 = 0 from rfl,if_neg hstop,put_ok (by simpa using hroom)]
    rfl
  | cons c t ih =>
    rw [List.length_cons] at hroom
    rw [List.length_cons,clauseFrom,peek_at h,ok_bind,show charAt (c::t) 0 = c from rfl,getclause]
    by_cases hc : c = chr '\n' ∨ quoted = false ∧ c = chr ','
    · rw [if_pos hc,if_pos hc,terminate_ok (by omega)]
      refine ⟨fun _ => ?_,fun hnil => absurd hnil (List.cons_ne_nil _ _)⟩
      rw [List.append_nil]
      rfl
    · rw [if_neg hc,if_neg hc,put_ok (by omega),ok_bind]
      obtain ⟨hsome,hnone⟩ := ih (if c = chr '"' then !quoted else quoted) (acc ++ [c]) (next_at h)
        (by rw [List.length_append,List.length_singleton]; omega)
      refine ⟨fun hne => ?_,hnone⟩
      rw [hsome hne,List.append_assoc,List.singleton_append,List.length_cons,Nat.add_assoc,Nat.add_comm 1]

theorem keyFrom_at (acc : CString) (h : At text p t) (h0 : 0 ∉ t) (hn : t.length < n) (hroom : acc.length+t.length < lineSize) :
    ∃ q, keyFrom text n p acc = .ok (acc ++ t.takeWhile keyChar,q) ∧ At text q (t.dropWhile keyChar) := by
  induction t generalizing p n acc with
  | nil =>
    obtain ⟨n,rfl⟩ := Nat.exists_eq_add_of_lt hn
    refine ⟨p,?_,h⟩
    rw [keyFrom,peek_at h,ok_bind,show charAt [] 0 = 0 from rfl,if_pos (Or.inl rfl)]
    exact congrArg (fun key => Except.ok (key,p)) (List.append_nil _).symm
  | cons c t ih =>
    obtain ⟨n,rfl⟩ := Nat.exists_eq_add_of_lt hn
    rw [List.mem_cons,not_or] at h0
    rw [List.length_cons] at hroom hn
    rw [keyFrom,peek_at h,ok_bind,show charAt (c::t) 0 = c from rfl]
    by_cases hc : keyChar c = true
    · obtain ⟨q,hq,hat⟩ := ih (n := (c::t).length+n) (acc ++ [c]) (next_at h) h0.2 (by rw [List.length_cons]; omega)
        (by rw [List.length_append,List.length_singleton]; omega)
      refine ⟨q,?_,by rwa [List.dropWhile_cons_of_pos hc]⟩
      rw [if_neg (by rw [hc]; rintro (h | h); exacts [h0.1 h.symm,absurd h (by decide)]),put_ok (by omega),ok_bind,hq,
        List.takeWhile_cons_of_pos hc,List.append_assoc,List.singleton_append]
    · rw [if_pos (Or.inr (Bool.eq_false_iff.mpr hc)),List.takeWhile_cons_of_neg hc,List.dropWhile_cons_of_neg hc,List.append_nil]
      exact ⟨p,rfl,h⟩

theorem ruleGetoper_at (h : At text p t) (hne : t ≠ []) : ruleGetoper text p = .ok (CheckRule.ruleGetoper t) := by
  cases t with
  | nil => exact absurd rfl hne
  | cons c t =>
    rw [ruleGetoper,peek_at (next_at h),ok_bind,peek_at h,ok_bind]
    cases t with
    | nil => rfl
    | cons d t => rfl

theorem ruleGetoper_length {op : Op} {sz : ℕ} (h : CheckRule.ruleGetoper t = some (op,sz)) : sz ≤ t.length := by
  have hzero : (0 : UInt8) ≠ chr '=' := by decide
  match t with
  | [] => cases h
  | [c] =>
    rw [CheckRule.ruleGetoper,if_neg (show ¬charAt [c] 1 = chr '=' from hzero)] at h
    split_ifs at h
    obtain ⟨-,rfl⟩ := Prod.mk.inj (Option.some.inj h)
    exact le_refl 1
  | c::d::t =>
    rw [CheckRule.ruleGetoper] at h
    have hsz : sz ≤ 2 := by
      split_ifs at h <;> obtain ⟨-,rfl⟩ := Prod.mk.inj (Option.some.inj h) <;> decide
    exact hsz.trans (Nat.le_add_left _ _)

theorem ruleValue_length (escaped : Bool) (t : CString) : (ruleValue escaped t).1.length ≤ t.length := by
  fun_induction ruleValue escaped t with
  | case1 => exact le_refl _
  | case2 c cs ih => exact Nat.succ_le_succ ih
  | case3 cs => exact Nat.zero_le _
  | case4 c cs hq hesc ih => exact ih.trans (Nat.le_succ _)
  | case5 c cs hq hesc ih => exact Nat.succ_le_succ ih

theorem valueFrom_at (acc : CString) (h : At text p t) (h0 : 0 ∉ t) (hn : t.length < n) (hroom : acc.length+t.length < lineSize) :
    ∃ q, valueFrom text n p acc = .ok (acc ++ (ruleValue false t).1,q) ∧ At text q (ruleValue false t).2 := by
  induction n generalizing p t acc with
  | zero => exact absurd hn (Nat.not_lt_zero _)
  | succ n ih =>
    rw [valueFrom,peek_at h,ok_bind]
    cases t with
    | nil =>
      rw [show charAt [] 0 = 0 from rfl,if_pos (Or.inl rfl)]
      exact ⟨p,congrArg (fun value => Except.ok (value,p)) (List.append_nil _).symm,h⟩
    | cons c t =>
      rw [List.mem_cons,not_or] at h0
      rw [List.length_cons] at hroom hn
      rw [show charAt (c::t) 0 = c from rfl,ruleValue]
      by_cases hq : c = chr '"'
      · rw [if_pos (Or.inr hq),if_pos hq]
        exact ⟨p,congrArg (fun value => Except.ok (value,p)) (List.append_nil _).symm,h⟩
      · rw [if_neg (by rintro (h | h); exacts [h0.1 h.symm,hq h]),if_neg hq]
        have hnext : (if c = chr '\\' then peek text (p+1) else .ok 0) = .ok (if c = chr '\\' then charAt t 0 else 0) := by
          by_cases hb : c = chr '\\'
          · rw [if_pos hb,if_pos hb,peek_at (next_at h)]
          · rw [if_neg hb,if_neg hb]
        rw [hnext,ok_bind]
        by_cases hesc : c = chr '\\' ∧ charAt t 0 = chr '"'
        · obtain ⟨hb,hd⟩ := hesc
          obtain ⟨t,rfl⟩ := charAt_quote hd
          rw [List.mem_cons,not_or] at h0
          rw [List.length_cons] at hroom hn
          obtain ⟨q,hrun,hat⟩ := ih (acc ++ [chr '"']) (next_at (next_at h)) h0.2.2 (by omega)
            (by rw [List.length_append,List.length_singleton]; omega)
          refine ⟨q,?_,by rwa [if_pos ⟨hb,rfl⟩,ruleValue]⟩
          dsimp only
          rw [if_pos ⟨hb,if_pos hb⟩,peek_at (next_at h),ok_bind]
          rw [show charAt (chr '"'::t) 0 = chr '"' from rfl,put_ok (by omega),ok_bind,hrun,if_pos ⟨hb,rfl⟩,ruleValue,
            List.append_assoc,List.singleton_append]
        · obtain ⟨q,hrun,hat⟩ := ih (acc ++ [c]) (next_at h) h0.2 (by omega)
            (by rw [List.length_append,List.length_singleton]; omega)
          refine ⟨q,?_,by rwa [if_neg hesc]⟩
          have hstay : ¬(c = chr '\\' ∧ (if c = chr '\\' then charAt t 0 else 0) = chr '"') := by
            rintro ⟨hb,hd⟩
            rw [if_pos hb] at hd
            exact hesc ⟨hb,hd⟩
          dsimp only
          rw [if_neg hstay,peek_at h,ok_bind,show charAt (c::t) 0 = c from rfl,put_ok (by omega),ok_bind,hrun,if_neg hesc,
            List.append_assoc,List.singleton_append]

end Cursor

section Key

variable {clause : CString}

theorem getvalue_at {t : CString} {p : ℕ} (h : At clause p t) (h0 : 0 ∉ t) (hroom : clause.length < lineSize) :
    getvalue clause p = .ok (if charAt (ruleValue false t).2 0 ≠ chr '"' then .error .quotexp
      else if charAt (ruleValue false t).2 1 ≠ 0 then .error .value else .ok (ruleValue false t).1) := by
  have hlen := h.length
  obtain ⟨q,hvalue,hat⟩ := valueFrom_at [] (n := clause.length+1) h h0 (by omega) (by rw [List.length_nil]; omega)
  have hvalueroom : (ruleValue false t).1.length < lineSize := (ruleValue_length false t).trans_lt (by omega)
  rw [getvalue,hvalue,ok_bind,List.nil_append]
  dsimp only
  rw [peek_at hat,ok_bind]
  by_cases hend : charAt (ruleValue false t).2 0 = chr '"'
  · rw [if_neg (not_not.mpr hend),if_neg (not_not.mpr hend)]
    obtain ⟨w,hw⟩ := charAt_quote hend
    rw [hw] at hat
    rw [hw,peek_at (next_at hat),ok_bind,show charAt (chr '"'::w) 1 = charAt w 0 from rfl]
    by_cases hz : charAt w 0 = 0
    · rw [if_neg (not_not.mpr hz),if_neg (not_not.mpr hz),terminate_ok hvalueroom]
      rfl
    · rw [if_pos hz,if_pos hz]
  · rw [if_pos hend,if_pos hend]

/-- A clause that fits its array is cut up without a fault, as the scanner of whole strings does it. -/
theorem ruleGetkey_eq (h0 : 0 ∉ clause) (hroom : clause.length < lineSize) :
    ruleGetkey clause = .ok (CheckRule.ruleGetkey clause) := by
  have hstart : At clause 0 clause := ⟨Nat.zero_le _,List.drop_zero⟩
  obtain ⟨q,hkey,hat⟩ := keyFrom_at [] hstart h0 (Nat.lt_succ_self _) (by simpa using hroom)
  have hkeyroom : (clause.takeWhile keyChar).length < lineSize := (List.takeWhile_sublist _).length_le.trans_lt hroom
  rw [ruleGetkey,CheckRule.ruleGetkey,hkey,ok_bind,List.nil_append,terminate_ok hkeyroom,ok_bind]
  obtain ⟨q,hstrip,hat⟩ := strip_at hat
  have hkey0 : 0 ∉ (clause.dropWhile keyChar).dropWhile isspace :=
    fun h => h0 (((List.dropWhile_sublist _).trans (List.dropWhile_sublist _)).subset h)
  dsimp only
  rw [hstrip,ok_bind,peek_at hat,ok_bind]
  generalize (clause.dropWhile keyChar).dropWhile isspace = t at hat hkey0
  by_cases hnil : t = []
  · rw [if_pos ((charAt_eq_zero hkey0).mpr hnil),if_pos hnil]
  rw [if_neg (mt (charAt_eq_zero hkey0).mp hnil),if_neg hnil,ruleGetoper_at hat hnil,ok_bind]
  cases hop : CheckRule.ruleGetoper t with
  | none => rfl
  | some r =>
    obtain ⟨op,sz⟩ := r
    obtain ⟨q,hstrip,hat⟩ := strip_at (hat.drop (ruleGetoper_length hop))
    have h0 : 0 ∉ (t.drop sz).dropWhile isspace := fun h => hkey0 (List.mem_of_mem_drop ((List.dropWhile_sublist _).subset h))
    dsimp only
    rw [hstrip,ok_bind,peek_at hat,ok_bind]
    generalize (t.drop sz).dropWhile isspace = t at hat h0
    by_cases hq : charAt t 0 = chr '"'
    · obtain ⟨v,rfl⟩ := charAt_quote hq
      rw [List.mem_cons,not_or] at h0
      rw [if_neg (by rw [hq]; decide),if_neg (not_not.mpr hq),getvalue_at (next_at hat) h0.2 hroom,ok_bind,
        show (chr '"'::v).drop 1 = v from rfl]
      by_cases hend : charAt (ruleValue false v).2 0 ≠ chr '"'
      · rw [if_pos hend,if_pos hend]
        rfl
      · rw [if_neg hend,if_neg hend]
        by_cases hz : charAt (ruleValue false v).2 1 ≠ 0
        · rw [if_pos hz,if_pos hz]
          rfl
        · rw [if_neg hz,if_neg hz]
          rfl
    · rw [if_pos (Or.inr hq),if_pos hq]

theorem check_eq (h0 : 0 ∉ clause) (hroom : clause.length < lineSize) : check clause = .ok (CheckRule.check clause) := by
  rw [check,CheckRule.check,ruleGetkey_eq h0 hroom,ok_bind]
  cases CheckRule.ruleGetkey clause with
  | error e => rfl
  | ok r => rfl

theorem checkClause_ok (lineno : ℕ) (line : CString) (hroom : clause.length < lineSize) :
    ∃ reports, checkClause lineno line clause = .ok reports := by
  have h0 : 0 ∉ clause.takeWhile (· ≠ 0) := fun h => absurd (List.mem_takeWhile_imp h) (by decide)
  have hlen : (clause.takeWhile (· ≠ 0)).length < lineSize := (List.takeWhile_sublist _).length_le.trans_lt hroom
  rw [checkClause]
  by_cases hnil : clause.takeWhile (· ≠ 0) = []
  · exact ⟨_,if_pos hnil⟩
  · rw [if_neg hnil,check_eq h0 hlen,ok_bind]
    exact ⟨_,rfl⟩

end Key

/-- The text ends with a newline, and some byte that is no whitespace begins it and is behind each comma outside of
quotes. -/
def Closed (text : CString) : Prop :=
  text.getLast? = some (chr '\n') ∧ (∃ c ∈ text, isspace c = false) ∧
    ∀ a b, text = a ++ chr ','::b → a.count (chr '"') % 2 = 0 → ∃ c ∈ b, isspace c = false

/-- What the clause scanner has gone through and where it has stopped. -/
structure Scanned (quoted : Bool) (s : CString) (r : CString × CString) : Prop where
  append : s = r.1 ++ r.2
  newline : chr '\n' ∉ r.1
  comma : ¬CutFrom quoted r.1
  stop : r.2 = [] ∨ (∃ v, r.2 = chr '\n'::v) ∨ ∃ v, r.2 = chr ','::v ∧ (quoted.toNat+r.1.count (chr '"')) % 2 = 0

section Clauses

variable {line t ws cl v a b : CString} {p n : ℕ}

theorem not_cutFrom_nil (quoted : Bool) : ¬CutFrom quoted [] := by
  rintro ⟨pre,post,h,-⟩
  exact absurd h.symm (List.append_ne_nil_of_right_ne_nil _ (List.cons_ne_nil _ _))

theorem getclause_scanned (quoted : Bool) (s : CString) : Scanned quoted s (getclause quoted s) := by
  induction s generalizing quoted with
  | nil => exact ⟨rfl,List.not_mem_nil,not_cutFrom_nil _,Or.inl rfl⟩
  | cons c s ih =>
    rw [getclause]
    by_cases hc : c = chr '\n' ∨ quoted = false ∧ c = chr ','
    · rw [if_pos hc]
      refine ⟨rfl,List.not_mem_nil,not_cutFrom_nil _,Or.inr ?_⟩
      rcases hc with rfl | ⟨rfl,rfl⟩
      · exact Or.inl ⟨s,rfl⟩
      · exact Or.inr ⟨s,rfl,rfl⟩
    · rw [if_neg hc]
      obtain ⟨hnl,hcomma⟩ := not_or.mp hc
      have hrec := ih (if c = chr '"' then !quoted else quoted)
      refine ⟨congrArg _ hrec.append,?_,fun h => hrec.comma ((cutFrom_cons hcomma).mp h),?_⟩
      · rw [List.mem_cons,not_or]
        exact ⟨Ne.symm hnl,hrec.newline⟩
      · refine hrec.stop.imp_right (Or.imp_right ?_)
        rintro ⟨v,hv,heven⟩
        refine ⟨v,hv,?_⟩
        dsimp only
        rw [List.count_cons]
        by_cases hq : c = chr '"'
        · rw [if_pos hq] at heven
          cases quoted <;> simp [hq] at heven ⊢ <;> omega
        · rw [if_neg hq] at heven
          simpa [hq] using heven

theorem strip_ne_nil : t.dropWhile isspace ≠ [] ↔ ∃ c ∈ t, isspace c = false := by
  rw [Ne,List.dropWhile_eq_nil_iff]
  push Not
  simp only [Bool.not_eq_true]

theorem count_space (h : ∀ c ∈ ws, isspace c = true) : ws.count (chr '"') = 0 :=
  List.count_eq_zero.mpr fun hq => absurd (h _ hq) (by decide)

theorem comma_quoted (hws : ∀ c ∈ ws, isspace c = true) (hcl : ¬CutFrom false cl) (h : ws ++ cl = a ++ chr ','::b) :
    a.count (chr '"') % 2 ≠ 0 := by
  intro heven
  rcases split_append h.symm with ⟨b',rfl⟩ | ⟨a',rfl,hcl'⟩
  · exact absurd (hws (chr ',') (by simp)) (by decide)
  · refine hcl ⟨a',b,hcl',?_⟩
    rw [List.count_append,count_space hws,Nat.zero_add] at heven
    rwa [Bool.toNat_false,Nat.zero_add]

theorem closed_last (hws : ∀ c ∈ ws, isspace c = true) (hcl : ¬CutFrom false cl)
    (hne : ∃ c ∈ ws ++ cl ++ [chr '\n'], isspace c = false) : Closed (ws ++ cl ++ [chr '\n']) := by
  refine ⟨List.getLast?_concat,hne,fun a b h heven => ?_⟩
  rcases split_append h.symm with ⟨b',h⟩ | ⟨a',rfl,hrest⟩
  · exact absurd heven (comma_quoted hws hcl h)
  · cases a' with
    | nil => exact absurd (List.cons.inj hrest).1 (by decide)
    | cons c a' => exact absurd (List.cons.inj hrest).2.symm (List.append_ne_nil_of_right_ne_nil _ (List.cons_ne_nil _ _))

theorem closed_cut (hws : ∀ c ∈ ws, isspace c = true) (hcl : ¬CutFrom false cl) (heven : cl.count (chr '"') % 2 = 0) :
    Closed (ws ++ cl ++ chr ','::v) ↔ Closed v := by
  have hcount (a : CString) : (ws ++ cl ++ chr ','::a).count (chr '"') % 2 = a.count (chr '"') % 2 := by
    rw [List.count_append,List.count_append,count_space hws,List.count_cons_of_ne (by decide)]
    omega
  constructor
  · rintro ⟨hlast,-,hcomma⟩
    have hv : v ≠ [] := by
      rintro rfl
      rw [List.getLast?_concat] at hlast
      exact absurd (Option.some.inj hlast) (by decide)
    refine ⟨?_,hcomma _ v rfl ?_,fun a b h hquotes => hcomma (ws ++ cl ++ chr ','::a) b ?_ ((hcount a).trans hquotes)⟩
    · rwa [List.getLast?_append_of_ne_nil _ (List.cons_ne_nil _ _),List.getLast?_cons_of_ne_nil hv] at hlast
    · rw [List.count_append,count_space hws,Nat.zero_add]
      exact heven
    · rw [h,List.append_assoc _ _ (chr ','::b)]
      rfl
  · rintro ⟨hlast,hne,hcomma⟩
    obtain ⟨c,hc,hspace⟩ := hne
    have hv : v ≠ [] := List.ne_nil_of_mem hc
    refine ⟨?_,⟨c,by simp [hc],hspace⟩,fun a b h hquotes => ?_⟩
    · rwa [List.getLast?_append_of_ne_nil _ (List.cons_ne_nil _ _),List.getLast?_cons_of_ne_nil hv]
    · rcases split_append h.symm with ⟨b',h⟩ | ⟨a',rfl,hrest⟩
      · exact absurd hquotes (comma_quoted hws hcl h)
      · cases a' with
        | nil =>
          obtain ⟨-,rfl⟩ := List.cons.inj hrest
          exact ⟨c,hc,hspace⟩
        | cons d a' =>
          obtain ⟨rfl,rfl⟩ := List.cons.inj hrest
          exact hcomma a' b rfl ((hcount a').symm.trans hquotes)

theorem mem_dropLast_suffix {s : CString} {c : UInt8} (h : s <:+ t) (hc : c ∈ s.dropLast) : c ∈ t.dropLast := by
  obtain ⟨u,rfl⟩ := h
  by_cases hs : s = []
  · rw [hs] at hc
    exact absurd hc List.not_mem_nil
  · rw [List.dropLast_append_of_ne_nil hs]
    exact List.mem_append_right _ hc

/-- Whether a line is closed is seen from one clause and what is behind it. -/
theorem closed_scan (hnl : chr '\n' ∉ t.dropLast) :
    ((getclause false (t.dropWhile isspace)).2 = [] → ¬Closed t) ∧
      (∀ v, (getclause false (t.dropWhile isspace)).2 = chr '\n'::v → Closed t) ∧
      ∀ v, (getclause false (t.dropWhile isspace)).2 = chr ','::v → (Closed t ↔ Closed v) := by
  obtain ⟨happend,hclnl,hcl,hstop⟩ := getclause_scanned false (t.dropWhile isspace)
  have hws : ∀ c ∈ t.takeWhile isspace, isspace c = true := fun c hc => List.mem_takeWhile_imp hc
  have hsplit : t = t.takeWhile isspace ++ t.dropWhile isspace := List.takeWhile_append_dropWhile.symm
  rw [happend,← List.append_assoc] at hsplit
  have hspace := strip_ne_nil (t := t)
  rw [happend] at hspace
  generalize getclause false (t.dropWhile isspace) = r at *
  obtain ⟨cl,rest⟩ := r
  dsimp only at *
  refine ⟨?_,?_,?_⟩
  · rintro rfl hclosed
    have hlast := hclosed.1
    rw [List.append_nil] at hsplit hspace
    rw [hsplit,List.getLast?_append_of_ne_nil _ (hspace.mpr hclosed.2.1)] at hlast
    exact hclnl (List.mem_of_getLast? hlast)
  · rintro v rfl
    obtain rfl : v = [] := by
      by_contra hv
      rw [hsplit,List.dropLast_append_of_ne_nil (List.cons_ne_nil _ _),List.dropLast_cons_of_ne_nil hv] at hnl
      exact hnl (by simp)
    have hne := hspace.mp (List.append_ne_nil_of_right_ne_nil _ (List.cons_ne_nil _ _))
    rw [hsplit] at hne ⊢
    exact closed_last hws hcl hne
  · rintro v rfl
    have heven : cl.count (chr '"') % 2 = 0 := by
      rcases hstop with h | ⟨w,h⟩ | ⟨w,-,heven⟩
      · cases h
      · exact absurd (List.cons.inj h).1 (by decide)
      · rwa [Bool.toNat_false,Nat.zero_add] at heven
    rw [hsplit]
    exact closed_cut hws hcl heven

/-- One round of the loop over the clauses: the cursor is at the byte that ends the clause. -/
theorem clausesFrom_round (lineno : ℕ) (h : At line p t) (hroom : t.length < lineSize) :
    ((getclause false (t.dropWhile isspace)).2 = [] → clausesFrom lineno line (n+1) p = .error .stale) ∧
      ∀ c v, (getclause false (t.dropWhile isspace)).2 = c::v → ∃ q reports, At line q (c::v) ∧
        clausesFrom lineno line (n+1) p = if c = chr '\n' then .ok reports
          else (clausesFrom lineno line n (q+1)).bind fun more => .ok (reports ++ more) := by
  obtain ⟨q,hstrip,hat⟩ := strip_at h
  have hfuel : line.length+1-q = (t.dropWhile isspace).length+1 := by
    have := hat.length
    omega
  have hlen : (t.dropWhile isspace).length ≤ t.length := (List.dropWhile_sublist _).length_le
  have hclause := clauseFrom_at false [] hat (by rw [List.length_nil]; omega)
  have happend := (getclause_scanned false (t.dropWhile isspace)).append
  rw [clausesFrom,hstrip,ok_bind,ruleGetclause,hfuel]
  refine ⟨fun hnil => by rw [hclause.2 hnil]; rfl,fun c v hrest => ?_⟩
  rw [hclause.1 (by rw [hrest]; exact List.cons_ne_nil _ _),ok_bind,List.nil_append,hrest]
  rw [hrest] at happend
  generalize (getclause false (t.dropWhile isspace)).1 = cl at happend
  rw [happend] at hat hlen
  have hcl : cl.length < lineSize := by
    rw [List.length_append,List.length_cons] at hlen
    omega
  obtain ⟨reports,hcheck⟩ := checkClause_ok lineno (line.takeWhile (· ≠ 0)) hcl
  have hdrop := hat.drop (k := cl.length) (by rw [List.length_append]; omega)
  rw [List.drop_left] at hdrop
  refine ⟨q+cl.length,reports,hdrop,?_⟩
  dsimp only
  rw [hcheck,ok_bind]
  rfl

theorem ok_append {x : Except Fault (List Report)} {reports : List Report} :
    (∃ r, x.bind (fun more => .ok (reports ++ more)) = .ok r) ↔ ∃ r, x = .ok r := by
  cases x with
  | error e => exact iff_of_false (fun ⟨r,hr⟩ => by cases hr) fun ⟨r,hr⟩ => by cases hr
  | ok more => exact iff_of_true ⟨_,rfl⟩ ⟨more,rfl⟩

/-- The loop over the clauses comes to the end of the line if and only if the line is closed. -/
theorem clausesFrom_closed (lineno : ℕ) (h : At line p t) (hn : t.length < n) (hroom : t.length < lineSize)
    (hnl : chr '\n' ∉ t.dropLast) : (∃ r, clausesFrom lineno line n p = .ok r) ↔ Closed t := by
  induction n generalizing p t with
  | zero => exact absurd hn (Nat.not_lt_zero _)
  | succ n ih =>
    obtain ⟨hfault,hround⟩ := clausesFrom_round (n := n) lineno h hroom
    obtain ⟨hopen,hlast,hcut⟩ := closed_scan hnl
    obtain ⟨happend,-,-,hstop⟩ := getclause_scanned false (t.dropWhile isspace)
    rcases hstop with hnil | ⟨v,hv⟩ | ⟨v,hv,-⟩
    · rw [hfault hnil]
      exact iff_of_false (fun ⟨r,hr⟩ => by cases hr) (hopen hnil)
    · obtain ⟨q,reports,-,hrun⟩ := hround _ v hv
      rw [hrun,if_pos rfl]
      exact iff_of_true ⟨reports,rfl⟩ (hlast v hv)
    · obtain ⟨q,reports,hat,hrun⟩ := hround _ v hv
      have hsuffix : chr ','::v <:+ t := by
        rw [hv] at happend
        exact (List.IsSuffix.trans ⟨_,happend.symm⟩ (List.dropWhile_suffix _))
      have hlen := hsuffix.length_le
      rw [List.length_cons] at hlen
      rw [hrun,if_neg (by decide),ok_append,hcut v hv]
      exact ih (next_at hat) (by omega) (by omega) fun hmem =>
        hnl (mem_dropLast_suffix ((List.suffix_cons _ _).trans hsuffix) hmem)

end Clauses

/-- The bytes in front of `p` after a round. -/
def pendingAfter (pending raw : CString) : CString :=
  let line := pending ++ raw
  if charAt line (line.length-2) = chr '\\' then line.take (line.length-2)
  else if raw.length < 3 then pending
  else if (line.dropWhile isspace).head? = some (chr '#') then line.takeWhile isspace
  else []

/-- The line fits the array behind the pending bytes, there is a byte in front of its last one, and if it is looked
at then it is closed. -/
def RoundSafe (pending raw : CString) : Prop :=
  let line := pending ++ raw
  line.length < lineSize ∧ 2 ≤ line.length ∧ (charAt line (line.length-2) ≠ chr '\\' → 3 ≤ raw.length →
    (line.dropWhile isspace).head? ≠ some (chr '#') → Closed (line.dropWhile isspace))

def Safe : CString → List CString → Prop
  | _, [] => True
  | pending, raw::lines => RoundSafe pending raw ∧ Safe (pendingAfter pending raw) lines

section Rounds

variable {line pending raw : CString}

theorem charAt_head {c : UInt8} (hc : c ≠ 0) (t : CString) : charAt t 0 = c ↔ t.head? = some c := by
  cases t with
  | nil => exact iff_of_false hc.symm (by simp)
  | cons d t => exact (Option.some_inj (a := d) (b := c)).symm

theorem take_strip {q : ℕ} (h : At line q (line.dropWhile isspace)) : line.take q = line.takeWhile isspace := by
  have hsplit : line.take q ++ line.dropWhile isspace = line.takeWhile isspace ++ line.dropWhile isspace := by
    rw [List.takeWhile_append_dropWhile,← h.2]
    exact List.take_append_drop q line
  exact List.append_cancel_right hsplit

theorem strip_newline (t : CString) : charAt (t.dropWhile isspace) 0 ≠ chr '\n' := by
  intro h
  have hhead := List.head?_dropWhile_not isspace t
  rw [(charAt_head (by decide) _).mp h] at hhead
  exact absurd hhead (by decide)

theorem round_safe (lineno : ℕ) (hnl : chr '\n' ∉ (pending ++ raw).dropLast) :
    (RoundSafe pending raw → ∃ reports, round lineno pending raw = .ok (pendingAfter pending raw,reports)) ∧
      (¬RoundSafe pending raw → ∃ e, round lineno pending raw = .error e) := by
  rw [round,RoundSafe,pendingAfter,← List.length_append]
  generalize pending ++ raw = line at hnl
  dsimp only
  by_cases hroom : line.length < lineSize
  swap
  · rw [if_pos (by omega)]
    exact ⟨fun h => absurd h.1 hroom,fun _ => ⟨_,rfl⟩⟩
  rw [if_neg (by omega),and_iff_right hroom]
  by_cases hbefore : 2 ≤ line.length
  swap
  · rw [if_pos (by omega)]
    exact ⟨fun h => absurd h.1 hbefore,fun _ => ⟨_,rfl⟩⟩
  rw [if_neg (by omega),and_iff_right hbefore]
  by_cases hcont : charAt line (line.length-2) = chr '\\'
  · rw [if_pos hcont,if_pos hcont]
    exact ⟨fun _ => ⟨[],rfl⟩,fun h => absurd (fun h => absurd hcont h) h⟩
  rw [if_neg hcont,if_neg hcont,forall_prop_of_true hcont]
  by_cases hshort : raw.length < 3
  · rw [if_pos hshort,if_pos hshort]
    exact ⟨fun _ => ⟨[],rfl⟩,fun h => absurd (fun h => absurd hshort (by omega)) h⟩
  rw [if_neg hshort,if_neg hshort,forall_prop_of_true (by omega : 3 ≤ raw.length)]
  obtain ⟨q,hstrip,hat⟩ := strip_at (show At line 0 line from ⟨Nat.zero_le _,List.drop_zero⟩)
  rw [hstrip,ok_bind,peek_at hat,ok_bind,take_strip hat]
  have hhash := charAt_head (show chr '#' ≠ 0 by decide) (line.dropWhile isspace)
  by_cases hcomment : charAt (line.dropWhile isspace) 0 = chr '#'
  · rw [if_pos hcomment,if_pos (hhash.mp hcomment)]
    exact ⟨fun _ => ⟨[],rfl⟩,fun h => absurd (fun h => absurd (hhash.mp hcomment) h) h⟩
  rw [if_neg hcomment,if_neg (strip_newline line),if_neg (mt hhash.mpr hcomment),forall_prop_of_true (mt hhash.mpr hcomment)]
  have hlen : (line.dropWhile isspace).length ≤ line.length := (List.dropWhile_sublist _).length_le
  have hclauses := clausesFrom_closed (n := line.length+1-q) lineno hat (by have := hat.length; omega) (by omega)
    fun h => hnl (mem_dropLast_suffix (List.dropWhile_suffix _) h)
  refine ⟨fun hclosed => ?_,fun hopen => ?_⟩
  · obtain ⟨reports,hrun⟩ := hclauses.mpr hclosed
    rw [hrun]
    exact ⟨reports,rfl⟩
  · cases hrun : clausesFrom lineno line (line.length+1-q) q with
    | error e => exact ⟨e,rfl⟩
    | ok reports => exact absurd (hclauses.mp ⟨reports,hrun⟩) hopen

/-- The bytes that wait for more of their line have no newline among them. -/
theorem pendingAfter_newline (hpending : chr '\n' ∉ pending) (hnl : chr '\n' ∉ (pending ++ raw).dropLast) :
    chr '\n' ∉ pendingAfter pending raw := by
  rw [pendingAfter]
  generalize pending ++ raw = line at hnl
  split_ifs with hcont hshort hcomment
  · intro hmem
    have htake : line.take (line.length-2) <+: line.dropLast := by
      rw [List.dropLast_eq_take]
      exact List.take_prefix_take_left (by omega)
    exact hnl (htake.subset hmem)
  · exact hpending
  · intro hmem
    refine hnl ?_
    have hsplit := List.takeWhile_append_dropWhile (p := isspace) (l := line)
    have hne : line.dropWhile isspace ≠ [] := by
      intro hnil
      rw [hnil] at hcomment
      cases hcomment
    rw [← hsplit,List.dropLast_append_of_ne_nil hne]
    exact List.mem_append_left _ hmem
  · exact List.not_mem_nil

theorem rounds_safe {lines : List CString} (lineno : ℕ) (hpending : chr '\n' ∉ pending)
    (hlines : ∀ raw ∈ lines, raw ≠ [] ∧ chr '\n' ∉ raw.dropLast) :
    (∃ r, rounds lineno pending lines = .ok r) ↔ Safe pending lines := by
  induction lines generalizing lineno pending with
  | nil => exact iff_of_true ⟨_,rfl⟩ trivial
  | cons raw lines ih =>
    rw [List.forall_mem_cons] at hlines
    obtain ⟨⟨hraw,hrawnl⟩,hlines⟩ := hlines
    have hnl : chr '\n' ∉ (pending ++ raw).dropLast := by
      rw [List.dropLast_append_of_ne_nil hraw,List.mem_append,not_or]
      exact ⟨hpending,hrawnl⟩
    obtain ⟨hsafe,hbad⟩ := round_safe (lineno+1) hnl
    rw [rounds,Safe]
    by_cases hround : RoundSafe pending raw
    · obtain ⟨reports,hrun⟩ := hsafe hround
      rw [hrun,ok_bind,ok_append,and_iff_right hround]
      exact ih (lineno+1) (pendingAfter_newline hpending hnl) hlines
    · obtain ⟨e,he⟩ := hbad hround
      rw [he]
      exact iff_of_false (fun ⟨r,hr⟩ => by cases hr) fun h => hround h.1

end Rounds

theorem rawLines_line (file : List UInt8) : ∀ raw ∈ rawLines file, raw ≠ [] ∧ chr '\n' ∉ raw.dropLast := by
  induction file with
  | nil => exact fun raw h => absurd h List.not_mem_nil
  | cons c file ih =>
    rw [rawLines]
    by_cases hc : c = chr '\n'
    · rw [if_pos hc,List.forall_mem_cons]
      exact ⟨⟨List.cons_ne_nil _ _,List.not_mem_nil⟩,ih⟩
    · rw [if_neg hc]
      cases hlines : rawLines file with
      | nil =>
        rw [List.forall_mem_singleton]
        exact ⟨List.cons_ne_nil _ _,List.not_mem_nil⟩
      | cons raw lines =>
        rw [hlines,List.forall_mem_cons] at ih
        obtain ⟨⟨hraw,hnl⟩,hrest⟩ := ih
        rw [List.forall_mem_cons,List.dropLast_cons_of_ne_nil hraw,List.mem_cons,not_or]
        exact ⟨⟨List.cons_ne_nil _ _,Ne.symm hc,hnl⟩,hrest⟩

/-- `udevrule` goes through the file without a fault if and only if each round is safe: no line is the lone newline at
the start of the array or too long for it, and each line that is cut into clauses is closed. -/
theorem udevrule_main_safe (file : List UInt8) : (∃ r, main file = .ok r) ↔ Safe [] (rawLines file) := by
  rw [← rounds_safe 0 List.not_mem_nil (rawLines_line file),main]
  cases rounds 0 [] (rawLines file) with
  | error e => exact iff_of_false (fun ⟨r,hr⟩ => by cases hr) fun ⟨r,hr⟩ => by cases hr
  | ok reports => exact iff_of_true ⟨_,rfl⟩ ⟨reports,rfl⟩

/-- An empty line at the start of the file: the byte in front of the array is looked at. -/
theorem udevrule_main_before : ¬∀ file : List UInt8, ∃ r, main file = .ok r := by
  intro h
  obtain ⟨r,hr⟩ := h (str "\n")
  have hfault : main (str "\n") = .error .before := by decide +kernel
  rw [hfault] at hr
  cases hr

end RuleChecker
end Udev
