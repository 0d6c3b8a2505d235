import Mathlib.Data.List.Chain
import Mathlib.Data.Option.Basic
import Udev.RoundTrip

/-! `parse_argv`, which cuts a command into arguments in its buffer: a quote begins an argument
that ends at the closing quote, any other byte except the blank begins or goes on with a word. -/
namespace Udev
namespace ParseArgv

open CString RuleLine

/-- The buffer, the position in it, and the array of pointers into it, with `none` for `NULL`,
the number of arguments, and the indices of the array that were written. -/
structure Split where
  buf : List UInt8
  p : ℕ := 0
  i : ℕ := 0
  argv : ℕ → Option ℕ
  stores : List ℕ := []

namespace Split

/-- `argv[i] = a` -/
def store (s : Split) (a : ℕ) : Split :=
  { s with argv := Function.update s.argv s.i (some a), stores := s.stores ++ [s.i] }

def addQuoted (s : Split) (r : List UInt8 × ℕ) : Split :=
  { s.store (s.p+1) with buf := r.1, i := s.i+1, p := s.p+r.2 }

def blank (s : Split) : Split :=
  if (s.argv s.i).isSome then { s with buf := s.buf.set s.p 0, i := s.i+1, p := s.p+1 } else { s with p := s.p+1 }

/-- Any other byte begins a word when there is none. -/
def char (s : Split) : Split := if (s.argv s.i).isNone then { s.store s.p with p := s.p+1 } else { s with p := s.p+1 }

def finish (s : Split) : Split := if (s.argv s.i).isSome then { s with i := s.i+1 } else s

end Split

def IsQuote (c : UInt8) : Prop := c = chr '\'' ∨ c = chr '"'

instance (c : UInt8) : Decidable (IsQuote c) := inferInstanceAs (Decidable (_ ∨ _))

/-- The loop of `parse_argv`; `none` when it has not come to its end. -/
def parseArgvLoop : ℕ → Split → Option Split
  | 0, s => if charAt s.buf s.p = 0 then some s else none
  | n+1, s =>
    if charAt s.buf s.p = 0 then some s
    -- do not separate quotes or double quotes
    else if IsQuote (charAt s.buf s.p) then
      match parseValue s.buf s.p (s.p+1) with
      -- what was decoded before the end of the buffer stays
      | none => some { s with buf := (parseValueLoop (charAt s.buf s.p) s.p s.buf.length s.buf 1 (s.p+1)).1 }
      | some r => parseArgvLoop n (s.addQuoted r)
    else if charAt s.buf s.p = chr ' ' then parseArgvLoop n s.blank
    else parseArgvLoop n s.char

def parseArgv (buf : List UInt8) (argv : ℕ → Option ℕ) : Option Split :=
  (parseArgvLoop buf.length { buf := buf, argv := argv }).map Split.finish

def Split.arguments (s : Split) : List (Option CString) := (List.range s.i).map fun j => (s.argv j).map (cstr s.buf)

example : (parseArgv (str "/bin/sh  -d   'one two'    'three'" ++ [0]) fun _ => none).map Split.arguments =
    some (["/bin/sh","-d","one two","three"].map fun s => some (str s)) := by decide +kernel

/-- A quoted value: the text behind the opening quote, the value and the text behind the closing
one, or none without such a quote. -/
inductive Value (q : UInt8) : CString → CString → Option CString → Prop
  | unclosed : Value q [] [] none
  | close (rest : CString) : Value q (q::rest) [] (some rest)
  | escaped {s v : CString} {rest : Option CString} (h : Value q s v rest) : Value q (chr '\\'::q::s) (q::v) rest
  | char {c : UInt8} {s v : CString} {rest : Option CString} (hc : c ≠ q) (hnot : ¬(c = chr '\\' ∧ s.head? = some q))
      (h : Value q s v rest) : Value q (c::s) (c::v) rest

inductive Token
  | char (c : UInt8) | quoted (v : CString)
  deriving DecidableEq, Repr

/-- The parts of a command, and whether all of its quotes are closed. -/
inductive Tokens : CString → List Token → Bool → Prop
  | nil : Tokens [] [] true
  | unclosed {q : UInt8} {s v : CString} (hq : IsQuote q) (h : Value q s v none) : Tokens (q::s) [] false
  | char {c : UInt8} {s : CString} {ts : List Token} {closed : Bool} (hc : ¬IsQuote c) (h : Tokens s ts closed) :
      Tokens (c::s) (.char c::ts) closed
  | quoted {q : UInt8} {s v rest : CString} {ts : List Token} {closed : Bool} (hq : IsQuote q)
      (hv : Value q s v (some rest)) (h : Tokens rest ts closed) : Tokens (q::s) (.quoted v::ts) closed

/-- The arguments of the parts that are left, with the word that has been begun. -/
def arguments : Option CString → List Token → List CString
  | word, [] => word.toList
  | _, .quoted v::ts => v::arguments none ts
  | word, .char c::ts =>
    if c = chr ' ' then word.toList ++ arguments none ts else arguments (some (word.getD [] ++ [c])) ts

/-- The text of a command: its quoted values and its other bytes except the blanks. -/
def text : List Token → CString
  | [] => []
  | .quoted v::ts => v ++ text ts
  | .char c::ts => if c = chr ' ' then text ts else c::text ts

/-- A quote does not open directly behind a word. -/
def Apart : Token → Token → Prop
  | .char c, .quoted _ => c = chr ' '
  | _, _ => True

section Value

open RoundTrip

variable {q : UInt8} {s v : CString} {rest : Option CString}

theorem IsQuote.ne_zero (hq : IsQuote q) : q ≠ 0 := by
  rcases hq with rfl | rfl
  · decide
  · decide

theorem IsQuote.ne_backslash (hq : IsQuote q) : q ≠ chr '\\' := by
  rcases hq with rfl | rfl
  · decide
  · decide

theorem Value.rest_length {rest : CString} (h : Value q s v (some rest)) : rest.length < s.length := by
  generalize hr : some rest = r at h
  induction h with
  | unclosed => cases hr
  | close rest =>
    obtain rfl := Option.some.inj hr
    simp
  | escaped _ ih =>
    have := ih hr
    rw [List.length_cons,List.length_cons]
    omega
  | char _ _ _ ih =>
    have := ih hr
    rw [List.length_cons]
    omega

theorem Value.subset (h : Value q s v rest) : v ⊆ s := by
  induction h with
  | unclosed => exact fun _ hx => hx
  | close rest => exact List.nil_subset _
  | escaped _ ih => exact List.cons_subset.mpr ⟨by simp,fun x hx => by simp [ih hx]⟩
  | char _ _ _ ih => exact List.cons_subset.mpr ⟨by simp,fun x hx => by simp [ih hx]⟩

theorem Value.rest_subset {rest : CString} (h : Value q s v (some rest)) : rest ⊆ s := by
  generalize hr : some rest = r at h
  induction h with
  | unclosed => cases hr
  | close rest =>
    obtain rfl := Option.some.inj hr
    exact List.subset_cons_self ..
  | escaped _ ih => exact fun x hx => by simp [ih hr hx]
  | char _ _ _ ih => exact fun x hx => by simp [ih hr hx]

/-- Behind an opening quote there is a value, up to a closing quote or to the end. -/
theorem exists_value (q : UInt8) (s : CString) : ∃ v rest, Value q s v rest := by
  induction hn : s.length using Nat.strong_induction_on generalizing s with
  | _ n ih =>
    subst hn
    cases s with
    | nil => exact ⟨[],none,.unclosed⟩
    | cons c s =>
      by_cases hc : c = q
      · subst hc
        exact ⟨[],some s,.close s⟩
      by_cases hnot : c = chr '\\' ∧ s.head? = some q
      · obtain ⟨rfl,hhead⟩ := hnot
        cases s with
        | nil => cases hhead
        | cons d s =>
          obtain rfl := Option.some.inj hhead
          obtain ⟨v,rest,hv⟩ := ih s.length (by rw [List.length_cons,List.length_cons]; omega) s rfl
          exact ⟨_,rest,.escaped hv⟩
      · obtain ⟨v,rest,hv⟩ := ih s.length (by simp) s rfl
        exact ⟨_,rest,.char hc hnot hv⟩

/-- The text of a value that is over or not, as it stands in the buffer behind it. -/
def behind (q : UInt8) (rest : Option CString) : List UInt8 := rest.elim [] fun rest => q::rest

/-- The loop of `parse_value` decodes the text to the end of what it has decoded already. -/
theorem parseValueLoop_value (h : Value q s v rest) (hq : IsQuote q) (h0 : 0 ∉ s) {start n len : ℕ} (hn : s.length < n)
    (P X : List UInt8) (hlen : start+len = (P ++ X).length) :
    ∃ Y len', parseValueLoop q start n (P ++ X ++ s ++ [0]) len P.length =
      (P ++ v ++ Y ++ behind q rest ++ [0],len',(P ++ v).length) ∧ start+len' = (P ++ v ++ Y).length := by
  induction h generalizing n len P X with
  | unclosed =>
    obtain ⟨n,rfl⟩ := Nat.exists_eq_succ_of_ne_zero (by omega : n ≠ 0)
    have hend : charAt (P ++ X ++ [] ++ [0]) (start+len) = 0 := by
      rw [List.append_nil]
      exact charAt_mid _ _ _ hlen
    refine ⟨X,len,?_,by simpa using hlen⟩
    rw [parseValueLoop,if_pos (Or.inl hend)]
    simp [behind]
  | close rest =>
    obtain ⟨n,rfl⟩ := Nat.exists_eq_succ_of_ne_zero (by simp at hn; omega : n ≠ 0)
    have hend : charAt (P ++ X ++ q::rest ++ [0]) (start+len) = q := by
      rw [List.append_assoc]
      exact charAt_mid _ _ _ hlen
    refine ⟨X,len,?_,by simpa using hlen⟩
    rw [parseValueLoop,if_pos (Or.inr hend)]
    simp [behind]
  | @escaped s v rest _ ih =>
    obtain ⟨n,rfl⟩ := Nat.exists_eq_succ_of_ne_zero (by omega : n ≠ 0)
    have hbuf : P ++ X ++ chr '\\'::q::s ++ [0] = P ++ X ++ chr '\\'::q::(s ++ [0]) := List.append_assoc ..
    have hgap := gap_length (c := q) (List.cons_ne_nil (chr '\\') [q]) hlen
    obtain ⟨Y,len',hloop,hend⟩ := ih (fun h => h0 (by simp [h])) (n := n) (by simp at hn; omega)
      (P ++ [q]) (X ++ [chr '\\',q]).tail hgap
    refine ⟨Y,len',?_,by simpa using hend⟩
    rw [hbuf,parseValueLoop_escaped hq.ne_backslash hlen,← List.append_assoc,List.append_cons P q v]
    exact hloop
  | @char c s v rest hc hnot _ ih =>
    obtain ⟨n,rfl⟩ := Nat.exists_eq_succ_of_ne_zero (by omega : n ≠ 0)
    have hbuf : P ++ X ++ c::s ++ [0] = P ++ X ++ c::(s ++ [0]) := List.append_assoc ..
    have hnext : ¬(c = chr '\\' ∧ charAt (s ++ [0]) 0 = q) := by
      rintro ⟨hback,hquote⟩
      cases s with
      | nil => exact hq.ne_zero hquote.symm
      | cons d s => exact hnot ⟨hback,congrArg some hquote⟩
    have hgap := gap_length (c := c) (List.cons_ne_nil c []) hlen
    obtain ⟨Y,len',hloop,hend⟩ := ih (fun h => h0 (by simp [h])) (n := n) (by simp at hn; omega)
      (P ++ [c]) (X ++ [c]).tail hgap
    refine ⟨Y,len',?_,by simpa using hend⟩
    rw [hbuf,parseValueLoop_char (fun h => h0 (by simp [h])) hc hnext hlen,← List.append_assoc,List.append_cons P c v]
    exact hloop

theorem parseValue_eq (h : Value q s v rest) (hq : IsQuote q) (h0 : 0 ∉ s) (P : List UInt8) :
    ∃ Y len, P.length+len = (P ++ [q] ++ v ++ Y).length ∧
      parseValue (P ++ q::s ++ [0]) P.length (P.length+1) =
        if charAt (behind q rest ++ [0]) 0 = 0 then none
        else some ((P ++ [q] ++ v ++ Y ++ behind q rest ++ [0]).set (P ++ [q] ++ v).length 0,len+1) := by
  have hbuf : P ++ q::s ++ [0] = P ++ [q] ++ [] ++ s ++ [0] := by simp
  obtain ⟨Y,len,hloop,hlen⟩ := parseValueLoop_value h hq h0
    (n := (P ++ q::s ++ [0]).length) (by simp; omega) (P ++ [q]) [] (show P.length+1 = _ by simp)
  rw [← hbuf,show (P ++ [q]).length = P.length+1 by simp] at hloop
  have hquote : charAt (P ++ q::s ++ [0]) P.length = q := by
    rw [List.append_assoc]
    exact charAt_mid _ _ _ rfl
  have hnot : ¬(q ≠ chr '"' ∧ q ≠ chr '\'') := by
    rcases hq with rfl | rfl
    · simp
    · simp
  have hend : charAt (P ++ [q] ++ v ++ Y ++ behind q rest ++ [0]) (P.length+len) = charAt (behind q rest ++ [0]) 0 := by
    rw [List.append_assoc _ (behind q rest) [0]]
    exact charAt_shift _ _ 0 hlen
  refine ⟨Y,len,hlen,?_⟩
  rw [parseValue,hquote,if_neg hnot,hloop]
  dsimp only
  rw [hend]

/-- The value is decoded in its place, and its terminator comes before the text behind the quote. -/
theorem parseValue_some {rest : CString} (h : Value q s v (some rest)) (hq : IsQuote q) (h0 : 0 ∉ s) (P : List UInt8) :
    ∃ Z len, parseValue (P ++ q::s ++ [0]) P.length (P.length+1) = some (P ++ q::(v ++ 0::Z) ++ rest ++ [0],len) ∧
      P.length+len = (P ++ q::(v ++ 0::Z)).length := by
  obtain ⟨Y,len,hlen,hparse⟩ := parseValue_eq h hq h0 P
  have hset := set_gap (P ++ [q] ++ v) (Y ++ [q]) (rest ++ [0]) 0 (by simp)
  refine ⟨(Y ++ [q]).tail,len+1,?_,?_⟩
  · have hclosed : charAt (behind q (some rest) ++ [0]) 0 = q := rfl
    rw [hparse,hclosed,if_neg hq.ne_zero]
    simp only [behind,Option.elim_some]
    rw [show P ++ [q] ++ v ++ Y ++ q::rest ++ [0] = P ++ [q] ++ v ++ (Y ++ [q]) ++ (rest ++ [0]) by simp,hset]
    simp
  · have htail : (Y ++ [q]).tail.length = Y.length := by simp
    simp only [List.length_append,List.length_cons,List.length_nil] at hlen ⊢
    omega

theorem parseValue_none (h : Value q s v none) (hq : IsQuote q) (h0 : 0 ∉ s) (P : List UInt8) :
    parseValue (P ++ q::s ++ [0]) P.length (P.length+1) = none := by
  obtain ⟨Y,len,-,hparse⟩ := parseValue_eq h hq h0 P
  have hopen : charAt (behind q none ++ [0]) 0 = 0 := rfl
  rw [hparse,if_pos hopen]

end Value

section Round

/-- What is left of the command stands in the buffer behind what is done. -/
structure At (st : Split) (done s : List UInt8) : Prop where
  buf : st.buf = done ++ s ++ [0]
  p : st.p = done.length

variable {st : Split} {done : List UInt8} {s : CString} {c q : UInt8}

theorem At.charAt {x : List UInt8} (h : At st done s) (hs : s ++ [0] = c::x) : CString.charAt st.buf st.p = c := by
  rw [h.buf,List.append_assoc,hs]
  exact RoundTrip.charAt_mid _ _ _ h.p

theorem At.blank (h : At st done (c::s)) : ∃ done', At st.blank done' s := by
  rw [Split.blank]
  split_ifs
  · exact ⟨done ++ [0],by rw [h.buf,h.p]; simp,by rw [h.p]; simp⟩
  · exact ⟨done ++ [c],by rw [h.buf]; simp,by rw [h.p]; simp⟩

theorem At.char (h : At st done (c::s)) : At st.char (done ++ [c]) s := by
  have hbuf : st.buf = done ++ [c] ++ s ++ [0] := by rw [h.buf]; simp
  have hp : st.p+1 = (done ++ [c]).length := by rw [h.p]; simp
  rw [Split.char]
  split_ifs
  · exact ⟨hbuf,hp⟩
  · exact ⟨hbuf,hp⟩

theorem At.quoted {v rest : CString} (h : At st done (q::s)) (hq : IsQuote q) (h0 : 0 ∉ s)
    (hvalue : Value q s v (some rest)) :
    ∃ r done', parseValue st.buf st.p (st.p+1) = some r ∧ At (st.addQuoted r) done' rest := by
  obtain ⟨Z,len,hparse,hlen⟩ := parseValue_some hvalue hq h0 done
  refine ⟨_,done ++ q::(v ++ 0::Z),by rw [h.buf,h.p]; exact hparse,rfl,?_⟩
  rw [← hlen,← h.p]
  rfl

/-! One round of the loop, by what it finds. -/

theorem At.loop_nil (h : At st done []) (n : ℕ) : parseArgvLoop n st = some st := by
  cases n with
  | zero => exact if_pos (h.charAt rfl)
  | succ n => exact if_pos (h.charAt rfl)

theorem At.loop_unclosed {v : CString} (h : At st done (q::s)) (hq : IsQuote q) (h0 : 0 ∉ s) (hvalue : Value q s v none)
    (n : ℕ) :
    parseArgvLoop (n+1) st = some { st with buf := (parseValueLoop q st.p st.buf.length st.buf 1 (st.p+1)).1 } := by
  have hnone : parseValue st.buf st.p (st.p+1) = none := by
    rw [h.buf,h.p]
    exact parseValue_none hvalue hq h0 done
  rw [parseArgvLoop,h.charAt rfl,if_neg hq.ne_zero,if_pos hq,hnone]

theorem At.loop_char (h : At st done (c::s)) (hzero : c ≠ 0) (hc : ¬IsQuote c) (n : ℕ) :
    parseArgvLoop (n+1) st = if c = chr ' ' then parseArgvLoop n st.blank else parseArgvLoop n st.char := by
  rw [parseArgvLoop,h.charAt rfl,if_neg hzero,if_neg hc]

theorem At.loop_quoted {r : List UInt8 × ℕ} (h : At st done (q::s)) (hq : IsQuote q)
    (hparse : parseValue st.buf st.p (st.p+1) = some r) (n : ℕ) :
    parseArgvLoop (n+1) st = parseArgvLoop n (st.addQuoted r) := by
  rw [parseArgvLoop,h.charAt rfl,if_neg hq.ne_zero,if_pos hq,hparse]

theorem exists_fuel {n : ℕ} (hn : (c::s).length ≤ n) : ∃ m, n = m+1 ∧ s.length ≤ m :=
  ⟨n-1,by rw [List.length_cons] at hn; omega,Nat.le_sub_one_of_lt hn⟩

end Round

section Loop

def Placed (buf : List UInt8) (a : ℕ) (v : CString) : Prop :=
  ∃ pre z, buf = pre ++ v ++ 0::z ∧ pre.length = a ∧ 0 ∉ v

theorem Placed.append {buf : List UInt8} {a : ℕ} {v : CString} (h : Placed buf a v) (x : List UInt8) :
    Placed (buf ++ x) a v := by
  obtain ⟨pre,z,rfl,hlen,h0⟩ := h
  exact ⟨pre,z ++ x,by simp,hlen,h0⟩

theorem Placed.cstr {buf : List UInt8} {a : ℕ} {v : CString} (h : Placed buf a v) : RuleLine.cstr buf a = v := by
  obtain ⟨pre,z,rfl,hlen,h0⟩ := h
  apply RoundTrip.cstr_mid pre v z _ hlen.symm
  rintro c hc rfl
  exact h0 hc

theorem getElem?_concat {l : List CString} {v u : CString} {j : ℕ} (h : (l ++ [v])[j]? = some u) :
    j < l.length ∧ l[j]? = some u ∨ j = l.length ∧ v = u := by
  rw [List.getElem?_append] at h
  split_ifs at h with hlt
  · exact Or.inl ⟨hlt,h⟩
  · obtain ⟨hj,hv⟩ := List.getElem?_eq_some_iff.mp h
    rw [List.length_singleton] at hj
    exact Or.inr ⟨by omega,by simpa using hv⟩

/-- In the middle of a command: the arguments that are complete are in the part of the buffer that
is done, the word that has been begun is at its end, and the array is zeroed from there on. -/
structure Inv (N : ℕ) (st : Split) (done : List UInt8) (args : List CString) (word : Option CString) (s : CString) :
    Prop where
  buf : st.buf = done ++ s ++ [0]
  p : st.p = done.length
  i : st.i = args.length
  complete : ∀ j v, args[j]? = some v → ∃ a, st.argv j = some a ∧ Placed done a v
  begun : word.elim (st.argv st.i = none) fun w => 0 ∉ w ∧ ∃ pre, done = pre ++ w ∧ st.argv st.i = some pre.length
  zeroed : ∀ j, st.i < j → j < N → st.argv j = none
  stores : ∀ k ∈ st.stores, k < args.length+word.toList.length

variable {N : ℕ} {st : Split} {done : List UInt8} {args : List CString} {word : Option CString} {s : CString}

theorem Inv.at (h : Inv N st done args word s) : At st done s := ⟨h.buf,h.p⟩

theorem Inv.char {c : UInt8} (h : Inv N st done args word (c::s)) (hc : c ≠ 0) :
    Inv N st.char (done ++ [c]) args (some (word.getD [] ++ [c])) s := by
  have hbuf : st.buf = done ++ [c] ++ s ++ [0] := by rw [h.buf]; simp
  have hp : st.p+1 = (done ++ [c]).length := by rw [h.p]; simp
  have hword := h.begun
  cases word with
  | none =>
    have hchar : st.char = { st.store st.p with p := st.p+1 } := if_pos (Option.isNone_iff_eq_none.mpr hword)
    rw [hchar]
    exact {
      buf := hbuf
      p := hp
      i := h.i
      complete := by
        intro j v hj
        obtain ⟨a,ha,hplaced⟩ := h.complete j v hj
        have hne : j ≠ st.i := by
          rintro rfl
          rw [Option.elim_none] at hword
          rw [hword] at ha
          cases ha
        exact ⟨a,(Function.update_of_ne hne ..).trans ha,hplaced.append _⟩
      begun := by
        constructor
        · simpa using hc.symm
        · exact ⟨done,rfl,by rw [← h.p]; exact Function.update_self ..⟩
      zeroed := by
        intro j hj hjN
        exact (Function.update_of_ne (Nat.ne_of_gt hj) ..).trans (h.zeroed j hj hjN)
      stores := by
        intro k hk
        rcases List.mem_append.mp hk with hk | hk
        · exact Nat.lt_succ_of_lt (h.stores k hk)
        · rw [List.mem_singleton.mp hk,h.i]
          exact Nat.lt_succ_self _ }
  | some w =>
    obtain ⟨hw,pre,hdone,hargv⟩ := hword
    have hchar : st.char = { st with p := st.p+1 } := if_neg (by rw [hargv]; simp)
    rw [hchar]
    exact {
      buf := hbuf
      p := hp
      i := h.i
      complete := by
        intro j v hj
        obtain ⟨a,ha,hplaced⟩ := h.complete j v hj
        exact ⟨a,ha,hplaced.append _⟩
      begun := by
        constructor
        · rw [Option.getD_some,List.mem_append,List.mem_singleton]
          rintro (hmem | hmem)
          · exact hw hmem
          · exact hc hmem.symm
        · exact ⟨pre,by rw [hdone]; simp,hargv⟩
      zeroed := h.zeroed
      stores := h.stores }

theorem Inv.blank (h : Inv N st done args word (chr ' '::s)) (hN : args.length+word.toList.length < N) :
    ∃ done', Inv N st.blank done' (args ++ word.toList) none s := by
  have hbegun := h.begun
  cases word with
  | none =>
    rw [Option.elim_none] at hbegun
    have hblank : st.blank = { st with p := st.p+1 } := if_neg (by rw [hbegun]; simp)
    rw [hblank,Option.toList_none,List.append_nil]
    exact ⟨done ++ [chr ' '],{
      buf := by rw [h.buf]; simp
      p := by rw [h.p]; simp
      i := h.i
      complete := by
        intro j v hj
        obtain ⟨a,ha,hplaced⟩ := h.complete j v hj
        exact ⟨a,ha,hplaced.append _⟩
      begun := hbegun
      zeroed := h.zeroed
      stores := h.stores }⟩
  | some w =>
    obtain ⟨hw,pre,hdone,hargv⟩ := hbegun
    have hblank : st.blank = { st with buf := st.buf.set st.p 0, i := st.i+1, p := st.p+1 } :=
      if_pos (by rw [hargv]; rfl)
    have hset : st.buf.set st.p 0 = done ++ [0] ++ s ++ [0] := by
      rw [h.buf,h.p]
      simp
    rw [hblank,Option.toList_some]
    rw [Option.toList_some,List.length_singleton] at hN
    exact ⟨done ++ [0],{
      buf := hset
      p := by rw [h.p]; simp
      i := by rw [h.i]; simp
      complete := by
        intro j v hj
        rcases getElem?_concat hj with ⟨-,hj⟩ | ⟨hlen,rfl⟩
        · obtain ⟨a,ha,hplaced⟩ := h.complete j v hj
          exact ⟨a,ha,hplaced.append _⟩
        · have hi : j = st.i := hlen.trans h.i.symm
          rw [hi]
          exact ⟨pre.length,hargv,pre,[],by rw [hdone],rfl,hw⟩
      begun := h.zeroed _ (Nat.lt_succ_self _) (by rw [h.i]; exact hN)
      zeroed := fun j hj => h.zeroed j (Nat.lt_of_succ_lt hj)
      stores := by
        intro k hk
        simpa using h.stores k hk }⟩

theorem Inv.quoted {q : UInt8} {v rest : CString} (h : Inv N st done args word (q::s)) (hN : args.length+1 < N)
    (hq : IsQuote q) (h0 : 0 ∉ s) (hvalue : Value q s v (some rest)) :
    ∃ r done', parseValue st.buf st.p (st.p+1) = some r ∧ Inv N (st.addQuoted r) done' (args ++ [v]) none rest := by
  obtain ⟨Z,len,hparse,hlen⟩ := parseValue_some hvalue hq h0 done
  have hv : 0 ∉ v := fun hmem => h0 (hvalue.subset hmem)
  refine ⟨_,done ++ q::(v ++ 0::Z),by rw [h.buf,h.p]; exact hparse,?_⟩
  exact {
    buf := rfl
    p := by rw [← hlen,← h.p]; rfl
    i := by
      show st.i+1 = _
      rw [h.i,List.length_append,List.length_singleton]
    complete := by
      intro j u hj
      rcases getElem?_concat hj with ⟨hlt,hj⟩ | ⟨hlen',rfl⟩
      · obtain ⟨a,ha,hplaced⟩ := h.complete j u hj
        have hne : j ≠ st.i := by
          rw [h.i]
          exact Nat.ne_of_lt hlt
        exact ⟨a,(Function.update_of_ne hne ..).trans ha,hplaced.append _⟩
      · have hi : j = st.i := hlen'.trans h.i.symm
        rw [hi]
        refine ⟨st.p+1,Function.update_self ..,done ++ [q],Z,by simp,?_,hv⟩
        rw [h.p,List.length_append,List.length_singleton]
    begun := by
      show Function.update st.argv st.i (some (st.p+1)) (st.i+1) = none
      rw [Function.update_of_ne (Nat.succ_ne_self _)]
      exact h.zeroed _ (Nat.lt_succ_self _) (by rw [h.i]; exact hN)
    zeroed := by
      intro j hj hjN
      have hj' : st.i+1 < j := hj
      exact (Function.update_of_ne (by omega) ..).trans (h.zeroed j (by omega) hjN)
    stores := by
      intro k hk
      rw [List.length_append,List.length_singleton]
      rcases List.mem_append.mp hk with hk | hk
      · have hlen : word.toList.length ≤ 1 := by cases word <;> simp
        have := h.stores k hk
        omega
      · rw [List.mem_singleton.mp hk,h.i]
        exact Nat.lt_succ_self _ }

/-- At the end of a command: there is `NULL` behind the arguments, and no index behind them was written. -/
structure Ended (f : Split) (argc : ℕ) : Prop where
  i : f.i = argc
  null : f.argv argc = none
  argument : ∀ j < argc, (f.argv j).isSome
  stores : ∀ k ∈ f.stores, k < argc

theorem Inv.ended (h : Inv N st done args word s) (hN : args.length+word.toList.length < N) (buf : List UInt8) :
    Ended ({ st with buf := buf } : Split).finish (args ++ word.toList).length := by
  have hargs : ∀ j < args.length, (st.argv j).isSome := by
    intro j hj
    obtain ⟨a,ha,-⟩ := h.complete j _ (List.getElem?_eq_getElem hj)
    rw [ha]
    rfl
  have hbegun := h.begun
  cases word with
  | none =>
    rw [Option.elim_none] at hbegun
    have hfinish : ({ st with buf := buf } : Split).finish = { st with buf := buf } := if_neg (by simp [hbegun])
    rw [hfinish,Option.toList_none,List.append_nil]
    exact ⟨h.i,by rw [← h.i]; exact hbegun,hargs,h.stores⟩
  | some w =>
    obtain ⟨-,pre,-,hargv⟩ := hbegun
    have hfinish : ({ st with buf := buf } : Split).finish = { st with buf := buf, i := st.i+1 } :=
      if_pos (by simp [hargv])
    have hlen : (args ++ (some w).toList).length = st.i+1 := by rw [h.i]; simp
    rw [hfinish,hlen]
    exact {
      i := rfl
      null := h.zeroed _ (Nat.lt_succ_self _) (by rw [h.i]; exact hN)
      argument := by
        intro j hj
        by_cases hi : j = st.i
        · rw [hi]
          simp [hargv]
        · exact hargs j (by have := h.i; omega)
      stores := by
        intro k hk
        rw [h.i]
        exact h.stores k hk }

theorem Inv.arguments (h : Inv N st done args word []) (hN : args.length+word.toList.length < N) :
    st.finish.arguments = (args ++ word.toList).map some := by
  have hended := h.ended hN st.buf
  have hread : ∀ j v, (args ++ word.toList)[j]? = some v → ∃ a, st.argv j = some a ∧ Placed st.buf a v := by
    intro j v hj
    cases hw : word with
    | none =>
      rw [hw,Option.toList_none,List.append_nil] at hj
      obtain ⟨a,ha,hplaced⟩ := h.complete j v hj
      exact ⟨a,ha,by rw [h.buf,List.append_assoc]; exact hplaced.append _⟩
    | some w =>
      rw [hw,Option.toList_some] at hj
      rcases getElem?_concat hj with ⟨-,hj⟩ | ⟨hlen,rfl⟩
      · obtain ⟨a,ha,hplaced⟩ := h.complete j v hj
        exact ⟨a,ha,by rw [h.buf,List.append_assoc]; exact hplaced.append _⟩
      · have hbegun := h.begun
        rw [hw] at hbegun
        obtain ⟨hw0,pre,hdone,hargv⟩ := hbegun
        rw [hlen,← h.i]
        exact ⟨pre.length,hargv,pre,[],by rw [h.buf,hdone]; simp,rfl,hw0⟩
  have hbuf : st.finish.buf = st.buf ∧ st.finish.argv = st.argv := by
    rw [Split.finish]
    split_ifs <;> exact ⟨rfl,rfl⟩
  rw [Split.arguments,hended.i,hbuf.1,hbuf.2]
  apply List.ext_getElem?
  intro j
  rw [List.getElem?_map,List.getElem?_map]
  by_cases hj : j < (args ++ word.toList).length
  · obtain ⟨a,ha,hplaced⟩ := hread j _ (List.getElem?_eq_getElem hj)
    rw [List.getElem?_range hj,List.getElem?_eq_getElem hj,Option.map_some,Option.map_some,ha,Option.map_some,
      hplaced.cstr]
  · rw [List.getElem?_eq_none (by simpa using Nat.le_of_not_lt hj),List.getElem?_eq_none (Nat.le_of_not_lt hj)]
    rfl

theorem word_length (word : Option CString) : word.toList.length ≤ 1 := by
  cases word <;> simp

theorem length_arguments (word : Option CString) (ts : List Token) : word.toList.length ≤ (arguments word ts).length := by
  induction ts generalizing word with
  | nil => exact le_rfl
  | cons t ts ih =>
    cases t with
    | quoted v =>
      rw [arguments,List.length_cons]
      exact (word_length word).trans (Nat.succ_le_succ (Nat.zero_le _))
    | char c =>
      rw [arguments]
      split_ifs
      · rw [List.length_append]
        exact Nat.le_add_right ..
      · exact (word_length word).trans (ih (some (word.getD [] ++ [c])))

theorem parseArgvLoop_spec {ts : List Token} {closed : Bool} (htokens : Tokens s ts closed) (h0 : 0 ∉ s) {n : ℕ}
    (hn : s.length ≤ n) (h : Inv N st done args word s) (hN : (args ++ arguments word ts).length < N) :
    ∃ f, parseArgvLoop n st = some f ∧ Ended f.finish (args ++ arguments word ts).length ∧
      (closed = true → f.finish.arguments = (args ++ arguments word ts).map some) := by
  induction htokens generalizing n st done args word with
  | nil =>
    have hlen : args.length+word.toList.length < N := by rwa [List.length_append] at hN
    exact ⟨st,h.at.loop_nil n,h.ended hlen st.buf,fun _ => h.arguments hlen⟩
  | @unclosed q s v hq hvalue =>
    obtain ⟨n,rfl,-⟩ := exists_fuel hn
    have hlen : args.length+word.toList.length < N := by rwa [List.length_append] at hN
    have h0' : 0 ∉ s := fun hmem => h0 (List.mem_cons_of_mem _ hmem)
    exact ⟨_,h.at.loop_unclosed hq h0' hvalue n,h.ended hlen _,fun hclosed => by cases hclosed⟩
  | @char c s ts closed hc _ ih =>
    obtain ⟨n,rfl,hn'⟩ := exists_fuel hn
    have hzero : c ≠ 0 := fun hc0 => h0 (by simp [hc0])
    have h0' : 0 ∉ s := fun hmem => h0 (List.mem_cons_of_mem _ hmem)
    rw [h.at.loop_char hzero hc]
    by_cases hblank : c = chr ' '
    · subst hblank
      rw [if_pos rfl]
      rw [arguments,if_pos rfl,← List.append_assoc] at hN ⊢
      have hlen : args.length+word.toList.length < N := by
        rw [List.length_append,List.length_append] at hN
        omega
      obtain ⟨done',h'⟩ := h.blank hlen
      exact ih h0' hn' h' hN
    · rw [if_neg hblank]
      rw [arguments,if_neg hblank] at hN ⊢
      exact ih h0' hn' (h.char hzero) hN
  | @quoted q s v rest ts closed hq hvalue _ ih =>
    obtain ⟨n,rfl,hn'⟩ := exists_fuel hn
    have h0' : 0 ∉ s := fun hmem => h0 (List.mem_cons_of_mem _ hmem)
    rw [arguments,List.append_cons args v (arguments none ts)] at hN ⊢
    have hlen : args.length+1 < N := by
      rw [List.length_append,List.length_append,List.length_singleton] at hN
      omega
    obtain ⟨r,done',hparse,h'⟩ := h.quoted hlen hq h0' hvalue
    rw [h.at.loop_quoted hq hparse]
    exact ih (fun hmem => h0' (hvalue.rest_subset hmem)) (hvalue.rest_length.le.trans hn') h' hN

theorem inv_start {argv : ℕ → Option ℕ} (hzero : ∀ j < N, argv j = none) (hN : 0 < N) (s : CString) :
    Inv N { buf := s ++ [0], argv := argv } [] [] none s where
  buf := rfl
  p := rfl
  i := rfl
  complete := fun j v hj => by cases hj
  begun := hzero 0 hN
  zeroed := fun j _ hj => hzero j hj
  stores := fun k hk => absurd hk List.not_mem_nil

/-- The arguments of a command, when there is room for them in the array and a `NULL` behind them. -/
theorem parseArgv_spec {ts : List Token} {closed : Bool} (htokens : Tokens s ts closed) (h0 : 0 ∉ s)
    {argv : ℕ → Option ℕ} (hzero : ∀ j < N, argv j = none) (hN : (arguments none ts).length < N) :
    ∃ f, parseArgv (s ++ [0]) argv = some f ∧ Ended f (arguments none ts).length ∧
      (closed = true → f.arguments = (arguments none ts).map some) := by
  obtain ⟨f,hloop,hended,hargs⟩ := parseArgvLoop_spec htokens h0 (n := (s ++ [0]).length) (by simp)
    (inv_start hzero (Nat.zero_lt_of_lt hN) s) hN
  exact ⟨f.finish,by rw [parseArgv,hloop]; rfl,hended,hargs⟩

end Loop

section Text

theorem exists_tokens (s : CString) : ∃ ts closed, Tokens s ts closed := by
  induction hn : s.length using Nat.strong_induction_on generalizing s with
  | _ n ih =>
    subst hn
    cases s with
    | nil => exact ⟨[],true,.nil⟩
    | cons c s =>
      by_cases hc : IsQuote c
      · obtain ⟨v,rest,hvalue⟩ := exists_value c s
        cases rest with
        | none => exact ⟨[],false,.unclosed hc hvalue⟩
        | some rest =>
          obtain ⟨ts,closed,hts⟩ := ih rest.length (Nat.lt_succ_of_lt hvalue.rest_length) rest rfl
          exact ⟨_,closed,.quoted hc hvalue hts⟩
      · obtain ⟨ts,closed,hts⟩ := ih s.length (Nat.lt_succ_self _) s rfl
        exact ⟨_,closed,.char hc hts⟩

def WordApart (word : Option CString) (ts : List Token) : Prop :=
  word.isSome → ∀ v, ts.head? ≠ some (.quoted v)

theorem flatten_length_le (word : Option CString) (ts : List Token) :
    (arguments word ts).flatten.length ≤ (word.getD [] ++ text ts).length := by
  induction ts generalizing word with
  | nil => cases word <;> simp [arguments,text]
  | cons t ts ih =>
    cases t with
    | quoted v =>
      have := ih none
      simp only [arguments,text,List.flatten_cons,List.length_append,Option.getD_none,List.length_nil] at this ⊢
      omega
    | char c =>
      rw [arguments,text]
      split_ifs
      · have := ih none
        cases word <;> simp only [Option.toList_none,Option.toList_some,List.flatten_append,List.flatten_nil,
          List.flatten_cons,List.length_append,Option.getD_none,Option.getD_some,List.length_nil] at this ⊢ <;> omega
      · have := ih (some (word.getD [] ++ [c]))
        simpa [Nat.add_assoc] using this

theorem isChain_quoted (v : CString) (ts : List Token) : (Token.quoted v::ts).IsChain Apart ↔ ts.IsChain Apart := by
  rw [List.isChain_cons]
  simp [Apart]

theorem isChain_char (c : UInt8) (ts : List Token) :
    (Token.char c::ts).IsChain Apart ↔ (c = chr ' ' ∨ ∀ v, ts.head? ≠ some (.quoted v)) ∧ ts.IsChain Apart := by
  rw [List.isChain_cons]
  apply and_congr_left'
  constructor
  · intro h
    by_cases hc : c = chr ' '
    · exact Or.inl hc
    · exact Or.inr fun v hv => hc (h _ hv)
  · intro h t ht
    cases t with
    | char d => trivial
    | quoted v => exact h.resolve_right fun hnot => hnot v ht

/-- All of the text is in the arguments if and only if no quote opens directly behind a word. -/
theorem flatten_arguments {word : Option CString} (hword : word ≠ some []) (ts : List Token) :
    (arguments word ts).flatten = word.getD [] ++ text ts ↔ WordApart word ts ∧ ts.IsChain Apart := by
  induction ts generalizing word with
  | nil => cases word <;> simp [arguments,text,WordApart]
  | cons t ts ih =>
    have hnone := @ih none (by simp)
    rw [Option.getD_none,List.nil_append] at hnone
    have hfree : WordApart none ts := fun h => by cases h
    cases t with
    | quoted v =>
      rw [arguments,text,List.flatten_cons,isChain_quoted]
      cases word with
      | none =>
        rw [Option.getD_none,List.nil_append,List.append_cancel_left_eq,hnone]
        constructor
        · rintro ⟨-,h⟩
          exact ⟨(fun hsome => by cases hsome),h⟩
        · rintro ⟨-,h⟩
          exact ⟨hfree,h⟩
      | some w =>
        have hw : 0 < w.length := List.length_pos_of_ne_nil fun h => hword (congrArg some h)
        have hle := flatten_length_le none ts
        constructor
        · intro h
          have hlen := congrArg List.length h
          simp only [List.length_append,Option.getD_some,Option.getD_none,List.length_nil] at hlen hle
          omega
        · rintro ⟨h,-⟩
          exact absurd rfl (h rfl v)
    | char c =>
      rw [arguments,text,isChain_char]
      have hchar : WordApart word (.char c::ts) := fun _ v h => by cases h
      by_cases hc : c = chr ' '
      · have hflat : word.toList.flatten = word.getD [] := by cases word <;> simp
        rw [if_pos hc,if_pos hc,List.flatten_append,hflat,List.append_cancel_left_eq,hnone]
        constructor
        · rintro ⟨-,h⟩
          exact ⟨hchar,Or.inl hc,h⟩
        · rintro ⟨-,-,h⟩
          exact ⟨hfree,h⟩
      · have hsome := @ih (some (word.getD [] ++ [c])) (by simp)
        rw [Option.getD_some] at hsome
        rw [if_neg hc,if_neg hc,List.append_cons (word.getD []) c (text ts),hsome]
        constructor
        · rintro ⟨h,hchain⟩
          exact ⟨hchar,Or.inr (h rfl),hchain⟩
        · rintro ⟨-,h,hchain⟩
          exact ⟨fun _ => h.resolve_left hc,hchain⟩

end Text

/-! A list of arguments that is quoted and joined. -/

section Join

def escape (v : CString) : CString := v.flatMap fun c => if c = chr '\'' then [chr '\\',c] else [c]

/-- An argument that is empty or has a blank or a quote in it is put into quotes. -/
def quoteArgument (a : CString) : CString :=
  if a = [] ∨ ∃ c ∈ a, c = chr ' ' ∨ IsQuote c then chr '\''::escape a ++ [chr '\''] else a

/-- The arguments with one or more blanks between them. -/
inductive Joins : List CString → CString → Prop
  | nil : Joins [] []
  | single (a : CString) : Joins [a] (quoteArgument a)
  | cons {a b : CString} {args : List CString} {cmd : CString} (n : ℕ) (h : Joins (b::args) cmd) :
      Joins (a::b::args) (quoteArgument a ++ List.replicate (n+1) (chr ' ') ++ cmd)

variable {a s : CString} {ts : List Token} {closed : Bool}

theorem escape_cons (c : UInt8) (v : CString) :
    escape (c::v) = (if c = chr '\'' then [chr '\\',c] else [c]) ++ escape v := rfl

theorem value_escape (hlast : a.getLast? ≠ some (chr '\\')) (rest : CString) :
    Value (chr '\'') (escape a ++ chr '\''::rest) a (some rest) := by
  induction a with
  | nil => exact .close rest
  | cons c a ih =>
    have hlast' : a.getLast? ≠ some (chr '\\') := by
      intro h
      apply hlast
      cases a with
      | nil => cases h
      | cons d a => rwa [List.getLast?_cons_cons]
    rw [escape_cons,List.append_assoc]
    by_cases hc : c = chr '\''
    · subst hc
      exact .escaped (ih hlast')
    · rw [if_neg hc]
      apply Value.char hc _ (ih hlast')
      rintro ⟨rfl,hhead⟩
      cases a with
      | nil => exact hlast rfl
      | cons d a =>
        rw [escape_cons] at hhead
        split_ifs at hhead with hd
        · exact absurd (Option.some.inj hhead) (by decide)
        · exact hd (Option.some.inj hhead)

theorem tokens_word (hword : ∀ c ∈ a, ¬IsQuote c) (h : Tokens s ts closed) :
    Tokens (a ++ s) (a.map .char ++ ts) closed := by
  induction a with
  | nil => exact h
  | cons c a ih => exact .char (hword c List.mem_cons_self) (ih fun d hd => hword d (List.mem_cons_of_mem _ hd))

theorem arguments_word (hword : ∀ c ∈ a, c ≠ chr ' ') (w : CString) (ts : List Token) :
    arguments (some w) (a.map .char ++ ts) = arguments (some (w ++ a)) ts := by
  induction a generalizing w with
  | nil => simp
  | cons c a ih =>
    rw [List.map_cons,List.cons_append,arguments,if_neg (hword c List.mem_cons_self),
      ih (fun d hd => hword d (List.mem_cons_of_mem _ hd)),Option.getD_some,List.append_assoc]
    rfl

theorem arguments_blanks (n : ℕ) (word : Option CString) (ts : List Token) :
    arguments word ((List.replicate (n+1) (chr ' ')).map .char ++ ts) = word.toList ++ arguments none ts := by
  induction n generalizing word with
  | zero => simp [arguments]
  | succ n ih =>
    rw [List.replicate_succ,List.map_cons,List.cons_append,arguments,if_pos rfl,ih]
    rfl

theorem tokens_argument (hlast : a.getLast? ≠ some (chr '\\')) (h : Tokens s ts closed)
    (hts : arguments (some a) ts = a::arguments none ts) :
    ∃ ts', Tokens (quoteArgument a ++ s) (ts' ++ ts) closed ∧ arguments none (ts' ++ ts) = a::arguments none ts := by
  rw [quoteArgument]
  split_ifs with hquote
  · refine ⟨[.quoted a],?_,rfl⟩
    have hcmd : chr '\''::escape a ++ [chr '\''] ++ s = chr '\''::(escape a ++ chr '\''::s) := by simp
    rw [hcmd]
    exact .quoted (Or.inl rfl) (value_escape hlast s) h
  · rw [not_or] at hquote
    have hplain : ∀ c ∈ a, c ≠ chr ' ' ∧ ¬IsQuote c := by
      intro c hc
      exact not_or.mp fun hor => hquote.2 ⟨c,hc,hor⟩
    refine ⟨a.map .char,tokens_word (fun c hc => (hplain c hc).2) h,?_⟩
    rw [← hts]
    obtain ⟨c,b,rfl⟩ := List.exists_cons_of_ne_nil hquote.1
    rw [List.map_cons,List.cons_append,arguments,if_neg (hplain c List.mem_cons_self).1,
      arguments_word fun d hd => (hplain d (List.mem_cons_of_mem _ hd)).1]
    rfl

theorem joins_tokens {args : List CString} {cmd : CString} (h : Joins args cmd)
    (hargs : ∀ a ∈ args, a.getLast? ≠ some (chr '\\')) : ∃ ts, Tokens cmd ts true ∧ arguments none ts = args := by
  induction h with
  | nil => exact ⟨[],.nil,rfl⟩
  | single a =>
    obtain ⟨ts,hts,harg⟩ := tokens_argument (hargs a (List.mem_singleton_self a)) .nil rfl
    rw [List.append_nil] at hts
    exact ⟨_,hts,harg⟩
  | @cons a b args cmd n _ ih =>
    obtain ⟨ts,hts,harg⟩ := ih fun c hc => hargs c (List.mem_cons_of_mem _ hc)
    have hblanks : Tokens (List.replicate (n+1) (chr ' ') ++ cmd)
        ((List.replicate (n+1) (chr ' ')).map .char ++ ts) true := by
      apply tokens_word _ hts
      intro c hc
      rw [List.eq_of_mem_replicate hc]
      decide
    obtain ⟨ts',hts',harg'⟩ := tokens_argument (hargs a List.mem_cons_self) hblanks (by
      rw [arguments_blanks,arguments_blanks]
      rfl)
    rw [arguments_blanks,harg] at harg'
    rw [List.append_assoc]
    exact ⟨_,hts',harg'⟩

theorem escape_subset (v : CString) : escape v ⊆ chr '\\'::v := by
  intro x hx
  obtain ⟨c,hc,hx⟩ := List.mem_flatMap.mp hx
  split_ifs at hx
  · rcases List.mem_pair.mp hx with rfl | rfl
    · exact List.mem_cons_self
    · exact List.mem_cons_of_mem _ hc
  · rw [List.mem_singleton.mp hx]
    exact List.mem_cons_of_mem _ hc

theorem quoteArgument_nul (h0 : 0 ∉ a) : 0 ∉ quoteArgument a := by
  rw [quoteArgument]
  split_ifs
  · intro hmem
    rcases List.mem_append.mp hmem with hmem | hmem
    · rcases List.mem_cons.mp hmem with hmem | hmem
      · exact absurd hmem (by decide)
      · rcases List.mem_cons.mp (escape_subset a hmem) with hmem | hmem
        · exact absurd hmem (by decide)
        · exact h0 hmem
    · exact absurd (List.mem_singleton.mp hmem) (by decide)
  · exact h0

theorem joins_nul {args : List CString} {cmd : CString} (h : Joins args cmd) (hargs : ∀ a ∈ args, 0 ∉ a) : 0 ∉ cmd := by
  induction h with
  | nil => exact List.not_mem_nil
  | single a => exact quoteArgument_nul (hargs a (List.mem_singleton_self a))
  | @cons a b args cmd n _ ih =>
    intro hmem
    rcases List.mem_append.mp hmem with hmem | hmem
    · rcases List.mem_append.mp hmem with hmem | hmem
      · exact quoteArgument_nul (hargs a List.mem_cons_self) hmem
      · exact absurd (List.eq_of_mem_replicate hmem) (by decide)
    · exact ih (fun c hc => hargs c (List.mem_cons_of_mem _ hc)) hmem

/-- The arguments that `parse_argv` returns in a zeroed array. -/
def split (cmd : CString) : Option (List (Option CString)) :=
  (parseArgv (cmd ++ [0]) fun _ => none).map Split.arguments

theorem split_tokens {cmd : CString} {ts : List Token} (h0 : 0 ∉ cmd) (h : Tokens cmd ts true) :
    split cmd = some ((arguments none ts).map some) := by
  have hzero : ∀ j < (arguments none ts).length+1, (fun _ : ℕ => (none : Option ℕ)) j = none := fun _ _ => rfl
  obtain ⟨f,hf,-,hargs⟩ := parseArgv_spec h h0 hzero (Nat.lt_succ_self _)
  rw [split,hf,Option.map_some,hargs rfl]

theorem split_round_trip {args : List CString} {cmd : CString} (h : Joins args cmd)
    (hargs : ∀ a ∈ args, 0 ∉ a ∧ a.getLast? ≠ some (chr '\\')) : split cmd = some (args.map some) := by
  obtain ⟨ts,hts,rfl⟩ := joins_tokens h fun a ha => (hargs a ha).2
  exact split_tokens (joins_nul h fun a ha => (hargs a ha).1) hts

/-- The arguments come back from a command that they were joined to; of any command with closed quotes
all text comes back if and only if no quote opens directly behind a word. -/
theorem parseArgv_text_iff (cmd : CString) :
    (∀ args, Joins args cmd → (∀ a ∈ args, 0 ∉ a ∧ a.getLast? ≠ some (chr '\\')) → split cmd = some (args.map some)) ∧
    ∀ ts, 0 ∉ cmd → Tokens cmd ts true →
      ((∃ args : List CString, split cmd = some (args.map some) ∧ args.flatten = text ts) ↔ ts.IsChain Apart) := by
  constructor
  · intro args h hargs
    exact split_round_trip h hargs
  · intro ts h0 h
    have hflat := @flatten_arguments none (by simp) ts
    rw [Option.getD_none,List.nil_append] at hflat
    have hfree : WordApart none ts := fun h => by cases h
    rw [split_tokens h0 h]
    constructor
    · rintro ⟨args,hargs,htext⟩
      have heq := List.map_injective_iff.mpr (Option.some_injective _) (Option.some.inj hargs)
      rw [← heq] at htext
      exact (hflat.mp htext).2
    · intro hchain
      exact ⟨_,rfl,hflat.mpr ⟨hfree,hchain⟩⟩

theorem parseArgv_quoted_argument : split (str "-c  'it\\'s'") = some ([str "-c",str "it's"].map some) := by
  have hcmd : quoteArgument (str "-c") ++ List.replicate 2 (chr ' ') ++ quoteArgument (str "it's") = str "-c  'it\\'s'" := by
    decide +kernel
  rw [← hcmd]
  exact (parseArgv_text_iff _).1 _ (.cons 1 (.single (str "it's"))) (by decide +kernel)

/-- The word before the quote is lost. -/
theorem quote_loses_word :
    0 ∉ str "abc'def'" ∧
      Tokens (str "abc'def'") [.char (chr 'a'),.char (chr 'b'),.char (chr 'c'),.quoted (str "def")] true ∧
      split (str "abc'def'") = some [some (str "def")] ∧
      ¬∃ args : List CString, split (str "abc'def'") = some (args.map some) ∧ args.flatten = str "abcdef" := by
  have hsplit : split (str "abc'def'") = some ([str "def"].map some) := by decide +kernel
  refine ⟨by decide,?_,hsplit,?_⟩
  · apply tokens_word (a := str "abc") (by decide +kernel)
    have hvalue : Value (chr '\'') (str "def'") (str "def") (some []) := value_escape (a := str "def") (by decide) []
    exact .quoted (Or.inl rfl) hvalue .nil
  · rintro ⟨args,hargs,htext⟩
    rw [hsplit] at hargs
    have heq := List.map_injective_iff.mpr (Option.some_injective _) (Option.some.inj hargs)
    rw [← heq] at htext
    exact absurd htext (by decide)

end Join

end ParseArgv
end Udev
