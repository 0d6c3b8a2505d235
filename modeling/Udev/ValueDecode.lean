import Udev.ParseArgv
import Udev.Memory

/-! `parse_value` on one memory that holds the string and the buffer for the value: the buffer lies
apart from the string, or is the string itself from its second byte on. -/
namespace Udev
namespace ValueDecode

open CString Memory ParseArgv

/-- The loop of `parse_value` with its `len` and `val`; `none` when it has not come to its end. -/
def parseValueLoop (str : ℕ) : ℕ → Memory → ℕ → ℕ → Option (Memory × ℕ × ℕ)
  | 0, _, _, _ => none
  | n+1, m, len, val =>
    if m (str+len) = 0 ∨ m (str+len) = m str then some (m,len,val)
    else
      let len := if m (str+len) = chr '\\' ∧ m (str+len+1) = m str then len+1 else len
      parseValueLoop str n (Function.update m val (m (str+len))) (len+1) (val+1)

/-- `parse_value` within some number of rounds: the memory and the result. -/
def parseValue (n : ℕ) (m : Memory) (str val : ℕ) : Option (Memory × ℤ) :=
  if m str ≠ chr '"' ∧ m str ≠ chr '\'' then some (m,-1)
  else (parseValueLoop str n m 1 val).map fun r =>
    if r.1 (str+r.2.1) = 0 then (r.1,-1) else (Function.update r.1 r.2.2 0,(r.2.1 : ℤ)+1)

/-- The value with a backslash before each quote. -/
def escapeQuotes (q : UInt8) (v : CString) : CString := v.flatMap fun c => if c = q then [chr '\\',q] else [c]

/-- The string ends its value: behind a quote at its begin there is the same quote with no backslash before it. -/
def Closed (s : CString) : Prop :=
  ∃ q pre rest, IsQuote q ∧ s = q::pre ++ q::rest ∧ (q::pre).getLast? ≠ some (chr '\\')

/-- The `n` bytes from `val` on do not meet the string of `k` bytes. -/
def Apart (str k val n : ℕ) : Prop := val+n ≤ str ∨ str+k ≤ val

section Value

variable {m m' : Memory} {q c : UInt8} {s v : CString} {rest : Option CString} {str pos len val n : ℕ}

theorem value_length (h : Value q s v rest) : v.length ≤ s.length := by
  induction h with
  | unclosed => exact le_rfl
  | close rest => exact Nat.zero_le _
  | escaped _ ih =>
    simp only [List.length_cons]
    omega
  | char _ _ _ ih =>
    simp only [List.length_cons]
    omega

theorem holds_value (hm : HoldsAt m' (val+1) v)
    (hframe : ∀ i, i < val+1 ∨ val+1+v.length ≤ i → m' i = Function.update m val c i) :
    HoldsAt m' val (c::v) ∧ ∀ i, i < val ∨ val+(c::v).length ≤ i → m' i = m i := by
  refine ⟨hm.cons ?_,fun i hi => ?_⟩
  · rw [hframe val (Or.inl (Nat.lt_succ_self val)),Function.update_self]
  · rw [List.length_cons] at hi
    rw [hframe i (by omega),Function.update_of_ne (by omega)]

/-- The loop writes the value and stops at the closing quote or at the terminator. -/
theorem parseValueLoop_value (h : Value q s v rest) (hq : IsQuote q) (h0 : 0 ∉ s) (hstr : m str = q)
    (hm : HoldsAt m (str+len) (s ++ [0])) (hn : s.length < n)
    (hval : str < val ∧ val ≤ str+len ∨ val+v.length ≤ str ∨ str+len+s.length < val) :
    ∃ m' len', parseValueLoop str n m len val = some (m',len',val+v.length) ∧
      HoldsAt m' val v ∧ HoldsAt m' (str+len') (behind q rest ++ [0]) ∧
      len'+(behind q rest).length = len+s.length ∧ ∀ i, i < val ∨ val+v.length ≤ i → m' i = m i := by
  induction h generalizing m len val n with
  | unclosed =>
    obtain ⟨n,rfl⟩ := Nat.exists_eq_succ_of_ne_zero (by omega : n ≠ 0)
    have hend : m (str+len) = 0 := hm.head
    refine ⟨m,len,?_,fun k hk => absurd hk (Nat.not_lt_zero k),hm,rfl,fun _ _ => rfl⟩
    rw [parseValueLoop,if_pos (Or.inl hend)]
    rfl
  | close rest =>
    obtain ⟨n,rfl⟩ := Nat.exists_eq_succ_of_ne_zero (by omega : n ≠ 0)
    have hend : m (str+len) = m str := hm.head.trans hstr.symm
    refine ⟨m,len,?_,fun k hk => absurd hk (Nat.not_lt_zero k),hm,rfl,fun _ _ => rfl⟩
    rw [parseValueLoop,if_pos (Or.inr hend)]
    rfl
  | @escaped s v rest _ ih =>
    obtain ⟨n,rfl⟩ := Nat.exists_eq_succ_of_ne_zero (by omega : n ≠ 0)
    simp only [List.length_cons] at hn hval
    have hback : m (str+len) = chr '\\' := hm.head
    have hquote : m (str+len+1) = q := hm.tail.head
    have hgo : ¬(chr '\\' = 0 ∨ chr '\\' = q) := not_or.mpr ⟨by decide,hq.ne_backslash.symm⟩
    have hm' : HoldsAt (Function.update m val q) (str+(len+2)) (s ++ [0]) :=
      HoldsAt.update (s := s ++ [0]) hm.tail.tail (by rw [List.length_append,List.length_singleton]; omega) q
    have hstr' : Function.update m val q str = q := by rw [Function.update_of_ne (by omega),hstr]
    have hval' : str < val+1 ∧ val+1 ≤ str+(len+2) ∨ val+1+v.length ≤ str ∨ str+(len+2)+s.length < val+1 := by omega
    obtain ⟨m',len',hloop,hv,hrest,hlen,hframe⟩ := ih (fun h => h0 (by simp [h])) hstr' hm' (n := n) (by omega) hval'
    obtain ⟨hv,hframe⟩ := holds_value hv hframe
    refine ⟨m',len',?_,hv,hrest,by simp only [List.length_cons]; omega,hframe⟩
    rw [parseValueLoop,hback,hstr,if_neg hgo,if_pos ⟨rfl,hquote⟩]
    dsimp only
    rw [← Nat.add_assoc str len 1,hquote,hloop,List.length_cons,Nat.add_right_comm,Nat.add_assoc]
  | @char c s v rest hc hnot _ ih =>
    obtain ⟨n,rfl⟩ := Nat.exists_eq_succ_of_ne_zero (by omega : n ≠ 0)
    simp only [List.length_cons] at hn hval
    have hhead : m (str+len) = c := hm.head
    have hgo : ¬(c = 0 ∨ c = q) := not_or.mpr ⟨fun h => h0 (by simp [h]),hc⟩
    have hnext : ¬(c = chr '\\' ∧ m (str+len+1) = q) := by
      rintro ⟨hback,hquote⟩
      cases s with
      | nil => exact hq.ne_zero (hquote.symm.trans hm.tail.head)
      | cons d s => exact hnot ⟨hback,congrArg some (hm.tail.head.symm.trans hquote)⟩
    have hm' : HoldsAt (Function.update m val c) (str+(len+1)) (s ++ [0]) :=
      HoldsAt.update (s := s ++ [0]) hm.tail (by rw [List.length_append,List.length_singleton]; omega) c
    have hstr' : Function.update m val c str = q := by rw [Function.update_of_ne (by omega),hstr]
    have hval' : str < val+1 ∧ val+1 ≤ str+(len+1) ∨ val+1+v.length ≤ str ∨ str+(len+1)+s.length < val+1 := by omega
    obtain ⟨m',len',hloop,hv,hrest,hlen,hframe⟩ := ih (fun h => h0 (by simp [h])) hstr' hm' (n := n) (by omega) hval'
    obtain ⟨hv,hframe⟩ := holds_value hv hframe
    refine ⟨m',len',?_,hv,hrest,by simp only [List.length_cons]; omega,hframe⟩
    rw [parseValueLoop,hhead,hstr,if_neg hgo,if_neg hnext]
    dsimp only
    rw [hhead,hloop,List.length_cons,Nat.add_right_comm,Nat.add_assoc]

theorem parseValue_quote (hq : IsQuote q) (hstr : m str = q) : parseValue n m str val =
    (parseValueLoop str n m 1 val).map fun r =>
      if r.1 (str+r.2.1) = 0 then (r.1,-1) else (Function.update r.1 r.2.2 0,(r.2.1 : ℤ)+1) := by
  have hnot : ¬(m str ≠ chr '"' ∧ m str ≠ chr '\'') := by
    rw [hstr]
    rcases hq with rfl | rfl
    · simp
    · simp
  rw [parseValue,if_neg hnot]

/-- A value that is closed is decoded and terminated, and nothing else is written. -/
theorem parseValue_some {rest : CString} (h : Value q s v (some rest)) (hq : IsQuote q) (h0 : 0 ∉ s)
    (hm : HoldsAt m str (q::s ++ [0])) (hval : val = str+1 ∨ Apart str (s.length+2) val (v.length+1)) (hn : s.length < n) :
    ∃ m' k, parseValue n m str val = some (m',(k : ℤ)) ∧ k+rest.length = s.length+1 ∧
      HoldsAt m' val (v ++ [0]) ∧ ∀ i, i < val ∨ val+v.length < i → m' i = m i := by
  have hstr : m str = q := hm.head
  have hval' : str < val ∧ val ≤ str+1 ∨ val+v.length ≤ str ∨ str+1+s.length < val := by
    unfold Apart at hval
    omega
  obtain ⟨m',len',hloop,hv,hrest,hlen,hframe⟩ := parseValueLoop_value h hq h0 hstr hm.tail hn hval'
  have hend : m' (str+len') ≠ 0 := by
    rw [show m' (str+len') = q from hrest.head]
    exact hq.ne_zero
  refine ⟨Function.update m' (val+v.length) 0,len'+1,?_,?_,?_,fun i hi => ?_⟩
  · rw [parseValue_quote hq hstr,hloop,Option.map_some]
    dsimp only
    rw [if_neg hend]
  · have hbehind : (behind q (some rest)).length = rest.length+1 := List.length_cons
    omega
  · intro k hk
    rw [List.length_append,List.length_singleton] at hk
    rcases Nat.lt_or_eq_of_le (Nat.le_of_lt_succ hk) with hlt | rfl
    · rw [Function.update_of_ne (by omega),hv k hlt,charAt_append_left hlt]
    · rw [Function.update_self,← Nat.add_zero v.length,charAt_append_right]
      rfl
  · rw [Function.update_of_ne (by omega),hframe i (by omega)]

theorem parseValue_none (h : Value q s v none) (hq : IsQuote q) (h0 : 0 ∉ s)
    (hm : HoldsAt m str (q::s ++ [0])) (hval : val = str+1 ∨ Apart str (s.length+2) val v.length) (hn : s.length < n) :
    ∃ m', parseValue n m str val = some (m',-1) := by
  have hstr : m str = q := hm.head
  have hval' : str < val ∧ val ≤ str+1 ∨ val+v.length ≤ str ∨ str+1+s.length < val := by
    unfold Apart at hval
    omega
  obtain ⟨m',len',hloop,-,hrest,-⟩ := parseValueLoop_value h hq h0 hstr hm.tail hn hval'
  have hend : m' (str+len') = 0 := hrest.head
  refine ⟨m',?_⟩
  rw [parseValue_quote hq hstr,hloop,Option.map_some]
  dsimp only
  rw [if_pos hend]

/-- The escaped value is read to the quote behind it: a backslash of the value stands before no quote. -/
theorem value_escapeQuotes (hq : IsQuote q) (hlast : v.getLast? ≠ some (chr '\\')) (rest : CString) :
    Value q (escapeQuotes q v ++ q::rest) v (some rest) := by
  induction v with
  | nil => exact .close rest
  | cons c v ih =>
    have htail : v.getLast? ≠ some (chr '\\') := by
      intro hv
      cases v with
      | nil => cases hv
      | cons d v => exact hlast (by rw [List.getLast?_cons_cons]; exact hv)
    by_cases hc : c = q
    · subst hc
      rw [escapeQuotes,List.flatMap_cons,if_pos rfl]
      exact .escaped (ih htail)
    · rw [escapeQuotes,List.flatMap_cons,if_neg hc]
      refine .char hc ?_ (ih htail)
      rintro ⟨rfl,hhead⟩
      cases v with
      | nil => exact hlast rfl
      | cons d v =>
        rw [List.flatMap_cons] at hhead
        by_cases hd : d = q
        · rw [if_pos hd] at hhead
          exact hq.ne_backslash (Option.some.inj hhead).symm
        · rw [if_neg hd] at hhead
          exact hd (Option.some.inj hhead)

theorem closed_value {rest : CString} (h : Value q s v (some rest)) (hq : IsQuote q) :
    ∃ pre, s = pre ++ q::rest ∧ (q::pre).getLast? ≠ some (chr '\\') := by
  generalize hr : some rest = r at h
  induction h with
  | unclosed => cases hr
  | close rest' =>
    obtain rfl := Option.some.inj hr
    exact ⟨[],rfl,fun h => hq.ne_backslash (Option.some.inj h)⟩
  | escaped _ ih =>
    obtain ⟨pre,rfl,hlast⟩ := ih hr
    refine ⟨chr '\\'::q::pre,rfl,?_⟩
    rw [List.getLast?_cons_cons,List.getLast?_cons_cons]
    exact hlast
  | @char c s v r hc hnot _ ih =>
    obtain ⟨pre,rfl,hlast⟩ := ih hr
    refine ⟨c::pre,rfl,?_⟩
    rw [List.getLast?_cons_cons]
    cases pre with
    | nil => exact fun h => hnot ⟨Option.some.inj h,rfl⟩
    | cons d pre =>
      rw [List.getLast?_cons_cons] at hlast ⊢
      exact hlast

theorem not_closed (hs : ¬Closed (q::s)) (hq : IsQuote q) : ∃ v, Value q s v none ∧ v.length ≤ s.length := by
  obtain ⟨v,rest,hvalue⟩ := exists_value q s
  cases rest with
  | none => exact ⟨v,hvalue,value_length hvalue⟩
  | some rest =>
    obtain ⟨pre,rfl,hlast⟩ := closed_value hvalue hq
    exact absurd ⟨q,pre,rest,hq,rfl,hlast⟩ hs

end Value

/-- A quoted value comes out as it was before its quotes were escaped, in a buffer of its own or in its
place, and a string that does not end its value is an error. -/
theorem parse_value_decodes :
    (∀ (q : UInt8) (v rest : CString) (m : Memory) (str val n : ℕ), IsQuote q → 0 ∉ v → 0 ∉ rest →
      v.getLast? ≠ some (chr '\\') → HoldsAt m str (q::escapeQuotes q v ++ q::rest ++ [0]) →
      (val = str+1 ∨ Apart str (q::escapeQuotes q v ++ q::rest ++ [0]).length val (v.length+1)) →
      (q::escapeQuotes q v ++ q::rest).length ≤ n →
      ∃ m', parseValue n m str val = some (m',((q::escapeQuotes q v ++ [q]).length : ℤ)) ∧
        HoldsAt m' val (v ++ [0]) ∧ ∀ i, i < val ∨ val+v.length < i → m' i = m i) ∧
    ∀ (s : CString) (m : Memory) (str val n : ℕ), 0 ∉ s → ¬Closed s → HoldsAt m str (s ++ [0]) →
      (val = str+1 ∨ Apart str (s ++ [0]).length val s.length) → s.length ≤ n →
      ∃ m', parseValue n m str val = some (m',-1) := by
  refine ⟨fun q v rest m str val n hq hv hrest hlast hm hval hn => ?_,fun s m str val n h0 hs hm hval hn => ?_⟩
  · have h0 : 0 ∉ escapeQuotes q v ++ q::rest := by
      intro hmem
      rcases List.mem_append.mp hmem with hmem | hmem
      · obtain ⟨c,hc,hin⟩ := List.mem_flatMap.mp hmem
        split_ifs at hin
        · simp only [List.mem_cons,List.not_mem_nil,or_false] at hin
          rcases hin with hin | hin
          · exact absurd hin (by decide)
          · exact hq.ne_zero hin.symm
        · exact hv (List.mem_singleton.mp hin ▸ hc)
      · exact (List.mem_cons.mp hmem).elim (fun h => hq.ne_zero h.symm) hrest
    have hplace : val = str+1 ∨ Apart str ((escapeQuotes q v ++ q::rest).length+2) val (v.length+1) := by
      simpa [Nat.add_assoc] using hval
    obtain ⟨m',k,hparse,hk,hout,hframe⟩ := parseValue_some (value_escapeQuotes hq hlast rest) hq h0 hm hplace hn
    refine ⟨m',?_,hout,hframe⟩
    have hlen : k = (q::escapeQuotes q v ++ [q]).length := by
      simp only [List.length_append,List.length_cons,List.length_nil] at hk ⊢
      omega
    rw [hparse,hlen]
  · cases s with
    | nil =>
      have hnot : m str ≠ chr '"' ∧ m str ≠ chr '\'' := by
        rw [show m str = 0 from hm.head]
        decide
      exact ⟨m,by rw [parseValue,if_pos hnot]⟩
    | cons q s =>
      by_cases hq : IsQuote q
      · obtain ⟨v,hvalue,hlen⟩ := not_closed hs hq
        refine parseValue_none hvalue hq (fun h => h0 (List.mem_cons_of_mem _ h)) hm (hval.imp_right fun hval => ?_) hn
        unfold Apart at hval ⊢
        simp only [List.length_append,List.length_cons,List.length_nil] at hval
        omega
      · have hnot : m str ≠ chr '"' ∧ m str ≠ chr '\'' := by
          rw [show m str = q from hm.head]
          exact ⟨fun h => hq (Or.inr h),fun h => hq (Or.inl h)⟩
        exact ⟨m,by rw [parseValue,if_pos hnot]⟩

/-- A value with a quote in it, decoded in its place, and a string with no quote of the kind that opens it. -/
theorem parse_value_decodes_quote :
    (∃ m', parseValue 20 (charAt (str "\"a\\\"b\" c" ++ [0])) 0 1 = some (m',6) ∧
      HoldsAt m' 1 (str "a\"b" ++ [0]) ∧ ∀ i, i < 1 ∨ 1+3 < i → m' i = charAt (str "\"a\\\"b\" c" ++ [0]) i) ∧
    ∃ m', parseValue 20 (charAt (str "'a\"b" ++ [0])) 0 10 = some (m',-1) := by
  have hat (s : CString) : HoldsAt (charAt s) 0 s := fun k _ => congrArg (charAt s) (Nat.zero_add k)
  have hopen : ¬Closed (str "'a\"b") := by
    rintro ⟨q,pre,rest,-,heq,-⟩
    have hhead : (str "'a\"b").head? = some q := congrArg List.head? heq
    have hmem : q ∈ (str "'a\"b").tail := by
      rw [heq]
      simp
    obtain rfl : q = chr '\'' := Option.some.inj (hhead.symm.trans (by decide))
    exact absurd hmem (by decide)
  exact ⟨parse_value_decodes.1 (chr '"') (str "a\"b") (str " c") _ 0 1 20 (Or.inr rfl) (by decide) (by decide)
    (by decide) (hat _) (Or.inl rfl) (by decide),
    parse_value_decodes.2 (str "'a\"b") _ 0 10 20 (by decide) hopen (hat _) (Or.inr (Or.inr (by decide))) (by decide)⟩

end ValueDecode
end Udev
