import Udev.RuleLine

/-! A line that was printed from keys, operators and values is read back as it was
printed. The buffer is seen as what is done, the item at hand and the text after it:
a call of `get_key` edits only the item at hand. -/
namespace Udev
namespace RoundTrip

open CString RuleLine

/-- A key, operator and value with the white space they are printed with. -/
structure Item where
  before : List UInt8 := []
  key : CString
  afterKey : List UInt8 := []
  op : Op
  afterOp : List UInt8 := []
  value : CString
  deriving DecidableEq, Repr

def escape (v : CString) : List UInt8 := v.flatMap fun c => if c = chr '"' then [chr '\\',c] else [c]

def Item.print (i : Item) : List UInt8 :=
  i.before ++ i.key ++ i.afterKey ++ i.op.text ++ i.afterOp ++ chr '"'::escape i.value ++ [chr '"']

def Item.triple (i : Item) : CString × Op × CString := (i.key,i.op,i.value)

def printLine (items : List Item) : List UInt8 := items.flatMap Item.print ++ [chr '\n']

structure Item.WellFormed (i : Item) : Prop where
  before : ∀ c ∈ i.before, isspace c ∨ c = chr ','
  key_ne : i.key ≠ []
  key : ∀ c ∈ i.key, c ≠ 0 ∧ isspace c = false ∧ c ≠ chr ',' ∧ c ≠ chr '='
  key_last : ∀ c ∈ i.key.getLast?, c ≠ chr '+' ∧ c ≠ chr '!' ∧ c ≠ chr ':'
  afterKey : ∀ c ∈ i.afterKey, isspace c
  op : i.op ≠ .opUnset
  afterOp : ∀ c ∈ i.afterOp, isspace c
  value : ∀ c ∈ i.value, c ≠ 0
  value_last : i.value.getLast? ≠ some (chr '\\')

/-- What `get_key` needs to find the key, the operator and the quote before the value. -/
structure Item.Readable (i : Item) : Prop where
  before : ∀ c ∈ i.before, isspace c ∨ c = chr ','
  key_ne : i.key ≠ []
  key_head : i.key.head? ≠ some (chr ',')
  key : ∀ c ∈ i.key, c ≠ 0 ∧ isspace c = false ∧ c ≠ chr '='
  key_last : charAt (i.afterKey ++ i.op.text) 0 = chr '=' →
    ∀ c ∈ i.key.getLast?, c ≠ chr '+' ∧ c ≠ chr '!' ∧ c ≠ chr ':'
  afterKey : ∀ c ∈ i.afterKey, isspace c
  op : i.op ≠ .opUnset
  afterOp : ∀ c ∈ i.afterOp, isspace c
  value : ∀ c ∈ i.value, c ≠ 0

theorem Item.WellFormed.readable {i : Item} (h : i.WellFormed) : i.Readable where
  before := h.before
  key_ne := h.key_ne
  key_head := fun hhead => (h.key _ (List.mem_of_head? hhead)).2.2.1 rfl
  key := fun c hc => ⟨(h.key c hc).1,(h.key c hc).2.1,(h.key c hc).2.2.2⟩
  key_last := fun _ => h.key_last
  afterKey := h.afterKey
  op := h.op
  afterOp := h.afterOp
  value := h.value

def Item.wellFormed (i : Item) : Bool :=
  i.before.all (fun c => isspace c || c == chr ',') && !i.key.isEmpty &&
  i.key.all (fun c => c != 0 && !isspace c && c != chr ',' && c != chr '=') &&
  i.key.getLast?.all (fun c => c != chr '+' && c != chr '!' && c != chr ':') &&
  i.afterKey.all isspace && i.op != .opUnset && i.afterOp.all isspace &&
  i.value.all (· != 0) && i.value.getLast? != some (chr '\\')

theorem Item.wellFormed_iff {i : Item} : i.wellFormed = true ↔ i.WellFormed := by
  simp only [Item.wellFormed,Bool.and_eq_true,List.all_eq_true,Bool.or_eq_true,beq_iff_eq,bne_iff_ne,
    Bool.not_eq_true',Option.all_eq_true,List.isEmpty_eq_false_iff,and_assoc]
  constructor
  · rintro ⟨hbefore,hkey_ne,hkey,hkey_last,hafterKey,hop,hafterOp,hvalue,hvalue_last⟩
    exact ⟨hbefore,hkey_ne,hkey,hkey_last,hafterKey,hop,hafterOp,hvalue,hvalue_last⟩
  · rintro ⟨hbefore,hkey_ne,hkey,hkey_last,hafterKey,hop,hafterOp,hvalue,hvalue_last⟩
    exact ⟨hbefore,hkey_ne,hkey,hkey_last,hafterKey,hop,hafterOp,hvalue,hvalue_last⟩

instance (i : Item) : Decidable i.WellFormed := decidable_of_iff _ Item.wellFormed_iff

theorem charAt_mid (P T : List UInt8) (c : UInt8) {n : ℕ} (hn : n = P.length) : charAt (P ++ c::T) n = c := by
  simp [charAt,hn]

theorem charAt_shift (P T : List UInt8) (k : ℕ) {n : ℕ} (hn : n = P.length+k) :
    charAt (P ++ T) n = charAt T k := by
  simp [charAt,hn,List.getD_eq_getElem?_getD,List.getElem?_append_right]

theorem charAt_next (P T : List UInt8) (c d : UInt8) {n : ℕ} (hn : n = P.length+1) :
    charAt (P ++ c::d::T) n = d := by
  simp [charAt,hn]

theorem set_mid (P X T : List UInt8) (c : UInt8) {n : ℕ} (hn : n = P.length) (hX : X ≠ []) :
    (P ++ X ++ T).set n c = P ++ X.set 0 c ++ T := by
  obtain ⟨x,X,rfl⟩ := List.exists_cons_of_ne_nil hX
  simp [hn]

theorem cstr_mid (P s T : List UInt8) (hs : ∀ c ∈ s, c ≠ 0) {n : ℕ} (hn : n = P.length) :
    cstr (P ++ s ++ 0::T) n = s := by
  unfold cstr
  rw [hn,List.append_assoc,List.drop_left,List.takeWhile_append_of_pos (by simpa using hs)]
  simp

theorem skip_mid (p : UInt8 → Bool) (P ws T : List UInt8) (c : UInt8) (hws : ∀ c ∈ ws, p c = true)
    (hc : p c = false) {n : ℕ} (hn : n = P.length) : skip p (P ++ ws ++ c::T) n = (P ++ ws).length := by
  unfold skip
  rw [hn,List.append_assoc,List.drop_left,List.takeWhile_append_of_pos hws]
  simp [hc]

def Stops (T : List UInt8) : Prop :=
  ∃ t T', T = t::T' ∧ t ≠ 0 ∧ (isspace t ∨ t = chr '=' ∨
    (t = chr '+' ∨ t = chr '!' ∨ t = chr ':') ∧ charAt T' 0 = chr '=')

theorem keyLength_append (k T : List UInt8) (hk : ∀ c ∈ k, c ≠ 0 ∧ isspace c = false ∧ c ≠ chr '=')
    (hlast : charAt T 0 = chr '=' → ∀ c ∈ k.getLast?, c ≠ chr '+' ∧ c ≠ chr '!' ∧ c ≠ chr ':') (hT : Stops T) :
    keyLength (k ++ T) = some k.length := by
  induction k with
  | nil =>
    obtain ⟨t,T',rfl,h0,hs | he | hp⟩ := hT
    · simp [keyLength,h0,hs]
    · subst he
      rfl
    · simp only [List.nil_append,keyLength,if_neg h0,if_pos hp]
      split_ifs <;> rfl
  | cons c k ih =>
    obtain ⟨h0,hs,he⟩ := hk c (by simp)
    have hnext : ¬((c = chr '+' ∨ c = chr '!' ∨ c = chr ':') ∧ charAt (k ++ T) 0 = chr '=') := by
      rintro ⟨hc,hnext⟩
      cases k with
      | nil =>
        obtain ⟨h₁,h₂,h₃⟩ := hlast hnext c (by simp)
        rcases hc with hc | hc | hc
        · exact h₁ hc
        · exact h₂ hc
        · exact h₃ hc
      | cons d k => exact (hk d (by simp)).2.2 hnext
    have hlast' : charAt T 0 = chr '=' → ∀ c ∈ k.getLast?, c ≠ chr '+' ∧ c ≠ chr '!' ∧ c ≠ chr ':' := by
      intro hT d hd
      refine hlast hT d ?_
      cases k with
      | nil => simp at hd
      | cons e k => simpa [List.getLast?_cons] using hd
    rw [List.cons_append,keyLength,if_neg h0,if_neg (by simp [hs,he]),if_neg hnext,
      ih (fun d hd => hk d (by simp [hd])) hlast']
    simp

theorem operator_text (P T : List UInt8) (c : UInt8) (op : Op) (hop : op ≠ .opUnset) (hc : c ≠ chr '=')
    {n : ℕ} (hn : n = P.length) : operator (P ++ op.text ++ c::T) n = some (op,op.text.length) := by
  have h : ∀ a b, charAt (P ++ [a,b] ++ c::T) n = a ∧ charAt (P ++ [a,b] ++ c::T) (n+1) = b := by
    simp [charAt,hn]
  have h' : charAt (P ++ [chr '='] ++ c::T) n = chr '=' ∧ charAt (P ++ [chr '='] ++ c::T) (n+1) = c := by
    simp [charAt,hn]
  have hne : ∀ {buf : List UInt8} {a b : UInt8} {q : Prop}, charAt buf n = a → a ≠ b →
      ¬(charAt buf n = b ∧ q) := fun ha hab hb => hab (ha.symm.trans hb.1)
  unfold operator
  cases op with
  | opUnset => exact absurd rfl hop
  | opMatch => exact if_pos (h (chr '=') (chr '='))
  | opNomatch =>
    have hc := h (chr '!') (chr '=')
    exact (if_neg (hne hc.1 (by decide))).trans (if_pos hc)
  | opAdd =>
    have hc := h (chr '+') (chr '=')
    exact (if_neg (hne hc.1 (by decide))).trans ((if_neg (hne hc.1 (by decide))).trans (if_pos hc))
  | opAssign =>
    have h₁ : ¬(charAt (P ++ [chr '='] ++ c::T) n = chr '=' ∧ charAt (P ++ [chr '='] ++ c::T) (n+1) = chr '=') :=
      fun h => hc (h'.2.symm.trans h.2)
    exact (if_neg h₁).trans ((if_neg (hne h'.1 (by decide))).trans
      ((if_neg (hne h'.1 (by decide))).trans (if_pos h'.1)))
  | opAssignFinal =>
    have hc := h (chr ':') (chr '=')
    have h₄ : charAt (P ++ [chr ':',chr '='] ++ c::T) n ≠ chr '=' := by rw [hc.1]; decide
    exact (if_neg (hne hc.1 (by decide))).trans ((if_neg (hne hc.1 (by decide))).trans
      ((if_neg (hne hc.1 (by decide))).trans ((if_neg h₄).trans (if_pos hc))))

theorem escape_cons (c : UInt8) (v : CString) :
    escape (c::v) = (if c = chr '"' then [chr '\\',c] else [c]) ++ escape v := rfl

theorem escape_length (v : CString) : v.length ≤ (escape v).length := by
  induction v with
  | nil => simp
  | cons c v ih =>
    rw [escape_cons,List.length_append,List.length_cons]
    split_ifs <;> simp <;> omega

theorem set_gap (P Y T : List UInt8) (c : UInt8) (hY : Y ≠ []) :
    (P ++ Y ++ T).set P.length c = P ++ [c] ++ Y.tail ++ T := by
  obtain ⟨y,Y,rfl⟩ := List.exists_cons_of_ne_nil hY
  simp

section Rounds

variable {q c : UInt8} {start n len : ℕ} {P X T : List UInt8}

/-- The bytes that a round reads close the gap in front of them by one. -/
theorem gap_length {E : List UInt8} (hE : E ≠ []) (hlen : start+len = (P ++ X).length) :
    start+(len+E.length) = (P ++ [c] ++ (X ++ E).tail).length := by
  have hpos := List.length_pos_of_ne_nil hE
  simp only [List.length_append,List.length_tail,List.length_singleton] at hlen ⊢
  omega

theorem parseValueLoop_escaped (hq : q ≠ chr '\\') (hlen : start+len = (P ++ X).length) :
    parseValueLoop q start (n+1) (P ++ X ++ chr '\\'::q::T) len P.length =
      parseValueLoop q start n (P ++ [q] ++ (X ++ [chr '\\',q]).tail ++ T) (len+2) (P ++ [q]).length := by
  have h₀ : charAt (P ++ X ++ chr '\\'::q::T) (start+len) = chr '\\' := charAt_mid _ _ _ hlen
  have h₁ : charAt (P ++ X ++ chr '\\'::q::T) (start+len+1) = q := charAt_next _ _ _ _ (by rw [hlen])
  have hset : (P ++ X ++ chr '\\'::q::T).set P.length q = P ++ [q] ++ (X ++ [chr '\\',q]).tail ++ T := by
    have := set_gap P (X ++ [chr '\\',q]) T q (by simp)
    simpa using this
  have hgo : ¬(chr '\\' = 0 ∨ chr '\\' = q) := not_or.mpr ⟨by decide,hq.symm⟩
  rw [parseValueLoop,h₀,if_neg hgo,if_pos ⟨rfl,h₁⟩]
  dsimp only
  rw [← Nat.add_assoc start len 1,h₁,hset,List.length_append,List.length_singleton]

theorem parseValueLoop_char (h0 : c ≠ 0) (hc : c ≠ q) (hnot : ¬(c = chr '\\' ∧ charAt T 0 = q))
    (hlen : start+len = (P ++ X).length) :
    parseValueLoop q start (n+1) (P ++ X ++ c::T) len P.length =
      parseValueLoop q start n (P ++ [c] ++ (X ++ [c]).tail ++ T) (len+1) (P ++ [c]).length := by
  have h₀ : charAt (P ++ X ++ c::T) (start+len) = c := charAt_mid _ _ _ hlen
  have h₁ : charAt (P ++ X ++ c::T) (start+len+1) = charAt T 0 := by
    rw [List.append_cons]
    exact charAt_shift _ _ 0 (by simp [hlen,Nat.add_assoc])
  have hset : (P ++ X ++ c::T).set P.length c = P ++ [c] ++ (X ++ [c]).tail ++ T := by
    have := set_gap P (X ++ [c]) T c (by simp)
    simpa using this
  rw [parseValueLoop,h₀,if_neg (not_or.mpr ⟨h0,hc⟩),h₁,if_neg hnot]
  dsimp only
  rw [h₀,hset,List.length_append,List.length_singleton]

end Rounds

/-- What stands after a byte that is not escaped is not a quote that the byte escapes. -/
theorem escape_next (c : UInt8) (v S : List UInt8) (hS : (c::v).getLast? = some (chr '\\') → charAt S 0 ≠ chr '"') :
    ¬(c = chr '\\' ∧ charAt (escape v ++ S) 0 = chr '"') := by
  rintro ⟨rfl,h⟩
  cases v with
  | nil => exact hS rfl h
  | cons d v =>
    rw [escape_cons] at h
    split_ifs at h with hd
    · exact absurd (show chr '\\' = chr '"' from h) (by decide)
    · exact hd h

/-- A round on a byte of an escaped value, which is escaped by a number of bytes. -/
theorem parseValueLoop_escapeByte {c : UInt8} {v S P W : List UInt8} {start n len : ℕ} (h0 : c ≠ 0)
    (hS : (c::v).getLast? = some (chr '\\') → charAt S 0 ≠ chr '"') (hlen : start+len = (P ++ W).length) :
    ∃ E, E ≠ [] ∧ escape (c::v) = E ++ escape v ∧
      parseValueLoop (chr '"') start (n+1) (P ++ W ++ escape (c::v) ++ S) len P.length =
        parseValueLoop (chr '"') start n (P ++ [c] ++ (W ++ E).tail ++ escape v ++ S) (len+E.length) (P ++ [c]).length := by
  by_cases hc : c = chr '"'
  · subst hc
    have hbuf : P ++ W ++ escape (chr '"'::v) ++ S = P ++ W ++ chr '\\'::chr '"'::(escape v ++ S) := by simp [escape_cons]
    refine ⟨[chr '\\',chr '"'],by simp,by simp [escape_cons],?_⟩
    rw [hbuf,parseValueLoop_escaped (by decide) hlen,← List.append_assoc]
    rfl
  · have hbuf : P ++ W ++ escape (c::v) ++ S = P ++ W ++ c::(escape v ++ S) := by simp [escape_cons,hc]
    refine ⟨[c],by simp,by simp [escape_cons,hc],?_⟩
    rw [hbuf,parseValueLoop_char h0 hc (escape_next c v S hS) hlen,← List.append_assoc]
    rfl

/-- The loop decodes the escaped bytes to the end of what it has decoded already, one in each round. -/
theorem parseValueLoop_append (v : CString) (hv : ∀ c ∈ v, c ≠ 0) (S : List UInt8)
    (hS : v.getLast? = some (chr '\\') → charAt S 0 ≠ chr '"') (start n : ℕ) (hn : v.length ≤ n)
    (P W : List UInt8) (len : ℕ) (hlen : start+len = (P ++ W).length) :
    ∃ W', parseValueLoop (chr '"') start n (P ++ W ++ escape v ++ S) len P.length =
      parseValueLoop (chr '"') start (n-v.length) (P ++ v ++ W' ++ S) (len+(escape v).length) (P ++ v).length ∧
      (P ++ v ++ W').length = (P ++ W ++ escape v).length := by
  induction v generalizing n P W len with
  | nil => exact ⟨W,by simp [escape],by simp [escape]⟩
  | cons c v ih =>
    obtain ⟨n,rfl⟩ := Nat.exists_eq_succ_of_ne_zero (by simp at hn; omega : n ≠ 0)
    have hv' : ∀ c ∈ v, c ≠ 0 := fun d hd => hv d (by simp [hd])
    have hS' : v.getLast? = some (chr '\\') → charAt S 0 ≠ chr '"' := by
      intro hlast
      refine hS ?_
      cases v with
      | nil => simp at hlast
      | cons d v => simpa [List.getLast?_cons] using hlast
    have hn' : v.length ≤ n := by simpa using hn
    have hfuel : n+1-(c::v).length = n-v.length := by rw [List.length_cons,Nat.add_sub_add_right]
    obtain ⟨E,hE,hesc,hround⟩ := parseValueLoop_escapeByte (n := n) (hv c List.mem_cons_self) hS hlen
    have hgap := gap_length (c := c) hE hlen
    obtain ⟨W',hloop,hend⟩ := ih hv' hS' n hn' (P ++ [c]) (W ++ E).tail (len+E.length) hgap
    refine ⟨W',?_,?_⟩
    · have hread : len+E.length+(escape v).length = len+(escape (c::v)).length := by
        rw [hesc,List.length_append,Nat.add_assoc]
      rw [hround,hloop,hfuel,hread,List.append_cons P c v]
    · rw [hesc,List.append_cons P c v,hend]
      simp only [List.length_append] at hlen hgap ⊢
      omega

theorem parseValueLoop_escape (v : CString) (hv : ∀ c ∈ v, c ≠ 0) (hlast : v.getLast? ≠ some (chr '\\'))
    (rest : List UInt8) (start n : ℕ) (hn : v.length < n) (P W : List UInt8) (len : ℕ)
    (hlen : start+len = (P ++ W).length) :
    ∃ W', parseValueLoop (chr '"') start n (P ++ W ++ escape v ++ chr '"'::rest) len P.length =
      (P ++ v ++ W' ++ chr '"'::rest,len+(escape v).length,(P ++ v).length) ∧
      (P ++ v ++ W').length = (P ++ W ++ escape v).length := by
  obtain ⟨W',hloop,hlen'⟩ := parseValueLoop_append v hv (chr '"'::rest) (fun h => absurd h hlast) start n hn.le P W
    len hlen
  obtain ⟨m,hm⟩ : ∃ m, n-v.length = m+1 := ⟨n-v.length-1,by omega⟩
  have hc : charAt (P ++ v ++ W' ++ chr '"'::rest) (start+(len+(escape v).length)) = chr '"' := by
    refine charAt_mid _ _ _ ?_
    rw [hlen']
    simp only [List.length_append] at hlen ⊢
    omega
  refine ⟨W',?_,hlen'⟩
  rw [hloop,hm,parseValueLoop,if_pos (Or.inr hc)]

theorem parseValueLoop_open (S : List UInt8) (hS : chr '"' ∉ S) (start n : ℕ) (hn : S.length < n) (P W : List UInt8)
    (len : ℕ) (hlen : start+len = (P ++ W).length) :
    charAt (parseValueLoop (chr '"') start n (P ++ W ++ S) len P.length).1
      (start+(parseValueLoop (chr '"') start n (P ++ W ++ S) len P.length).2.1) = 0 := by
  induction S generalizing n P W len with
  | nil =>
    obtain ⟨n,rfl⟩ := Nat.exists_eq_succ_of_ne_zero (by omega : n ≠ 0)
    have hend : charAt (P ++ W ++ []) (start+len) = 0 := by simp [charAt,hlen]
    rw [parseValueLoop,if_pos (Or.inl hend)]
    exact hend
  | cons c S ih =>
    obtain ⟨n,rfl⟩ := Nat.exists_eq_succ_of_ne_zero (by omega : n ≠ 0)
    obtain ⟨hc,hS'⟩ := not_or.mp (List.mem_cons.not.mp hS)
    have h₀ : charAt (P ++ W ++ c::S) (start+len) = c := charAt_mid _ _ _ hlen
    by_cases hzero : c = 0
    · rw [parseValueLoop,if_pos (Or.inl (h₀.trans hzero))]
      exact h₀.trans hzero
    have h₁ : charAt S 0 ≠ chr '"' := by
      cases S with
      | nil => decide
      | cons d S => exact fun h => hS' (by simp [← h,charAt])
    rw [parseValueLoop_char hzero (Ne.symm hc) (fun h => h₁ h.2) hlen]
    exact ih hS' n (by simpa using hn) (P ++ [c]) (W ++ [c]).tail (len+1) (gap_length (List.cons_ne_nil c []) hlen)

theorem parseValue_open (v : CString) (hv : ∀ c ∈ v, c ≠ 0) (P rest : List UInt8) (hrest : chr '"' ∉ rest) :
    parseValue (P ++ chr '"'::(escape (v ++ [chr '\\']) ++ [chr '"'] ++ rest)) P.length (P.length+1) = none := by
  have hesc : escape (v ++ [chr '\\']) ++ [chr '"'] = escape (v ++ [chr '"']) := by
    have hone : chr '\\' ≠ chr '"' := by decide
    simp [escape,hone]
  let buf := P ++ chr '"'::(escape (v ++ [chr '\\']) ++ [chr '"'] ++ rest)
  have hq : charAt buf P.length = chr '"' := charAt_mid _ _ _ rfl
  have hbuf : buf = (P ++ [chr '"']) ++ [] ++ escape (v ++ [chr '"']) ++ rest := by simp [buf,← hesc]
  have hle : (v ++ [chr '"']).length ≤ (escape (v ++ [chr '"'])).length := escape_length _
  have hfuel : (v ++ [chr '"']).length+rest.length < buf.length := by
    rw [hbuf]
    simp only [List.length_append,List.length_singleton] at hle ⊢
    omega
  have hv' : ∀ c ∈ v ++ [chr '"'], c ≠ 0 := by
    intro c hc
    rcases List.mem_append.mp hc with hc | hc
    · exact hv c hc
    · rw [List.mem_singleton.mp hc]
      decide
  obtain ⟨W,hloop,hlen⟩ := parseValueLoop_append (v ++ [chr '"']) hv' rest
    (fun h => absurd (h.symm.trans List.getLast?_concat) (by decide)) P.length buf.length (by omega) (P ++ [chr '"']) [] 1 (by simp)
  have hend := parseValueLoop_open rest hrest P.length (buf.length-(v ++ [chr '"']).length) (by omega)
    (P ++ [chr '"'] ++ (v ++ [chr '"'])) W (1+(escape (v ++ [chr '"'])).length) (by
      rw [hlen]
      simp only [List.length_append,List.length_singleton,List.length_nil]
      omega)
  rw [← hloop,← hbuf] at hend
  have hfl : (P ++ [chr '"']).length = P.length+1 := by simp
  rw [hfl] at hend
  have hnot : ¬(charAt buf P.length ≠ chr '"' ∧ charAt buf P.length ≠ chr '\'') := fun h => h.1 hq
  show parseValue buf P.length (P.length+1) = none
  rw [parseValue,if_neg hnot]
  simp only [hq]
  rw [if_pos hend]

theorem parseValue_quoted (v : CString) (hv : ∀ c ∈ v, c ≠ 0) (hlast : v.getLast? ≠ some (chr '\\'))
    (P rest : List UInt8) {n : ℕ} (hn : n = P.length) :
    ∃ Z, parseValue (P ++ chr '"'::escape v ++ [chr '"'] ++ rest) n (n+1) =
        some (P ++ chr '"'::v ++ 0::Z ++ rest,(escape v).length+2) ∧
      v.length+(0::Z).length = (escape v).length+1 := by
  subst hn
  have hq : charAt (P ++ chr '"'::escape v ++ [chr '"'] ++ rest) P.length = chr '"' := by
    rw [List.append_assoc,List.append_assoc]
    exact charAt_mid _ _ _ rfl
  have hbuf : P ++ chr '"'::escape v ++ [chr '"'] ++ rest =
      (P ++ [chr '"']) ++ [] ++ escape v ++ chr '"'::rest := by simp
  have hfuel : v.length < (P ++ chr '"'::escape v ++ [chr '"'] ++ rest).length := by
    have := escape_length v
    simp
    omega
  obtain ⟨W,hW,hlen⟩ := parseValueLoop_escape v hv hlast rest P.length _ hfuel (P ++ [chr '"']) [] 1 (by simp)
  obtain ⟨w,W',hW'⟩ : ∃ w W', W ++ [chr '"'] = w::W' := List.exists_cons_of_ne_nil (by simp)
  refine ⟨W',?_,?_⟩
  · have hend : charAt (P ++ [chr '"'] ++ v ++ W ++ chr '"'::rest) (P.length+(1+(escape v).length)) =
        chr '"' := by
      refine charAt_mid _ _ _ ?_
      rw [hlen]
      simp
      omega
    have hset : (P ++ [chr '"'] ++ v ++ W ++ chr '"'::rest).set (P ++ [chr '"'] ++ v).length 0 =
        P ++ chr '"'::v ++ 0::W' ++ rest := by
      have hsplit : P ++ [chr '"'] ++ v ++ W ++ chr '"'::rest = (P ++ [chr '"'] ++ v) ++ w::W' ++ rest := by
        rw [← hW']
        simp
      rw [hsplit,set_mid _ _ _ _ rfl (by simp)]
      simp
    have hnot : ¬(charAt (P ++ chr '"'::escape v ++ [chr '"'] ++ rest) P.length ≠ chr '"' ∧
        charAt (P ++ chr '"'::escape v ++ [chr '"'] ++ rest) P.length ≠ chr '\'') := fun h => h.1 hq
    rw [parseValue,if_neg hnot]
    simp only [hq]
    rw [hbuf] at hW ⊢
    have hfl : (P ++ [chr '"']).length = P.length+1 := by simp
    rw [hfl] at hW
    rw [hW]
    simp only [hend]
    rw [if_neg (by decide),hset]
    simp
    omega
  · have : (W ++ [chr '"']).length = (w::W').length := by rw [hW']
    simp at this hlen ⊢
    omega

theorem getKey_eq (buf : List UInt8) (line key len pos pos' : ℕ) (op : Op × ℕ)
    (h₀ : charAt buf line ≠ 0) (hkey : skip (fun c => isspace c || c == chr ',') buf line = key)
    (h₁ : charAt buf key ≠ 0) (hlen : keyLength (buf.drop (key+1)) = some len)
    (hpos : skip isspace buf (key+1+len) = pos) (h₂ : charAt buf pos ≠ 0)
    (hop : operator buf pos = some op)
    (hpos' : skip isspace (buf.set (key+1+len) 0) (pos+op.2) = pos')
    (hq : charAt (buf.set (key+1+len) 0) pos' = chr '"') :
    getKey buf line = (parseValue (buf.set (key+1+len) 0) pos' (pos'+1)).map fun r =>
      { buf := r.1, line := pos'+r.2, key := key, op := op.1, value := pos'+1 } := by
  have hne : chr '"' ≠ 0 := by decide
  subst hkey hpos hpos'
  simp [getKey,h₀,h₁,hlen,h₂,hop,hq,hne,Option.map_eq_bind,Function.comp_def]

theorem op_text_ne_nil {op : Op} (h : op ≠ .opUnset) : op.text ≠ [] := by
  cases op <;> first | exact absurd rfl h | decide

theorem op_text_head {op : Op} (h : op ≠ .opUnset) (T : List UInt8) :
    ∃ c S, op.text ++ T = c::S ∧ c ≠ 0 ∧ isspace c = false ∧
      (c = chr '=' ∨ (c = chr '+' ∨ c = chr '!' ∨ c = chr ':') ∧ charAt S 0 = chr '=') := by
  cases op with
  | opUnset => exact absurd rfl h
  | opMatch => exact ⟨chr '=',chr '='::T,rfl,by decide,by decide,Or.inl rfl⟩
  | opNomatch => exact ⟨chr '!',chr '='::T,rfl,by decide,by decide,Or.inr ⟨by decide,rfl⟩⟩
  | opAdd => exact ⟨chr '+',chr '='::T,rfl,by decide,by decide,Or.inr ⟨by decide,rfl⟩⟩
  | opAssign => exact ⟨chr '=',T,rfl,by decide,by decide,Or.inl rfl⟩
  | opAssignFinal => exact ⟨chr ':',chr '='::T,rfl,by decide,by decide,Or.inr ⟨by decide,rfl⟩⟩

theorem isspace_ne {c : UInt8} (h : isspace c = true) : c ≠ 0 ∧ c ≠ chr '=' ∧ c ≠ chr '"' := by
  refine ⟨?_,?_,?_⟩ <;> rintro rfl <;> exact absurd h (by decide)

theorem afterKey_stops {ws : List UInt8} (hws : ∀ c ∈ ws, isspace c = true) {op : Op}
    (hop : op ≠ .opUnset) (T : List UInt8) : Stops (ws ++ (op.text ++ T)) := by
  cases ws with
  | nil =>
    obtain ⟨c,S,hS,h0,_,hc⟩ := op_text_head hop T
    exact ⟨c,S,hS,h0,Or.inr hc⟩
  | cons w ws =>
    have hw := hws w (by simp)
    exact ⟨w,ws ++ (op.text ++ T),rfl,(isspace_ne hw).1,Or.inl hw⟩

/-- A call finds the value of an item whatever stands behind the quote. -/
theorem getKey_value (i : Item) (hi : i.Readable) (pre T : List UInt8) :
    ∃ X, i.afterKey.length+i.op.text.length = X.length+1 ∧
      getKey (pre ++ i.before ++ i.key ++ i.afterKey ++ i.op.text ++ i.afterOp ++ chr '"'::T) pre.length =
        (parseValue (pre ++ i.before ++ i.key ++ 0::X ++ i.afterOp ++ chr '"'::T)
            (pre ++ i.before ++ i.key ++ 0::X ++ i.afterOp).length
            ((pre ++ i.before ++ i.key ++ 0::X ++ i.afterOp).length+1)).map fun r =>
          { buf := r.1, line := (pre ++ i.before ++ i.key ++ 0::X ++ i.afterOp).length+r.2,
            key := (pre ++ i.before).length, op := i.op,
            value := (pre ++ i.before ++ i.key ++ 0::X ++ i.afterOp).length+1 } := by
  obtain ⟨c,k,hck⟩ := List.exists_cons_of_ne_nil hi.key_ne
  obtain ⟨hc0,hcs,_⟩ := hi.key c (by simp [hck])
  have hcc : c ≠ chr ',' := fun h => hi.key_head (by simp [hck,h])
  let tail := i.afterOp ++ chr '"'::T
  obtain ⟨o,S,hS,ho0,hos,_⟩ := op_text_head hi.op tail
  obtain ⟨x,X,hX⟩ : ∃ x X, i.afterKey ++ i.op.text = x::X :=
    List.exists_cons_of_ne_nil (by simp [op_text_ne_nil hi.op])
  have hkey : ∀ c ∈ k, c ≠ 0 ∧ isspace c = false ∧ c ≠ chr '=' := fun d hd => hi.key d (by simp [hck,hd])
  have hhead : charAt (i.afterKey ++ (i.op.text ++ tail)) 0 = charAt (i.afterKey ++ i.op.text) 0 := by
    rw [← List.append_assoc,hX]
    rfl
  have hlast : charAt (i.afterKey ++ (i.op.text ++ tail)) 0 = chr '=' →
      ∀ c ∈ k.getLast?, c ≠ chr '+' ∧ c ≠ chr '!' ∧ c ≠ chr ':' := by
    intro heq d hd
    refine hi.key_last (hhead ▸ heq) d ?_
    rw [hck]
    cases k with
    | nil => simp at hd
    | cons e k => simpa [List.getLast?_cons] using hd
  let buf := pre ++ i.before ++ i.key ++ i.afterKey ++ i.op.text ++ i.afterOp ++ chr '"'::T
  have hbuf₁ : buf = pre ++ i.before ++ c::(k ++ i.afterKey ++ i.op.text ++ tail) := by simp [buf,hck,tail]
  have hbuf₂ : buf = pre ++ i.before ++ i.key ++ i.afterKey ++ i.op.text ++ tail := by simp [buf,tail]
  have hbuf₃ : buf = (pre ++ i.before ++ i.key) ++ (i.afterKey ++ i.op.text) ++ tail := by simp [buf,tail]
  have hset : buf.set ((pre ++ i.before).length+1+k.length) 0 =
      pre ++ i.before ++ i.key ++ 0::X ++ i.afterOp ++ chr '"'::T := by
    rw [hbuf₃,set_mid _ _ _ _ (by simp [hck]; omega) (by simp [hX]),hX]
    simp [tail]
  have hXlen : i.afterKey.length+i.op.text.length = X.length+1 := by
    simpa using congrArg List.length hX
  refine ⟨X,hXlen,?_⟩
  have h := getKey_eq buf pre.length (pre ++ i.before).length k.length
    (pre ++ i.before ++ i.key ++ i.afterKey).length
    (pre ++ i.before ++ i.key ++ 0::X ++ i.afterOp).length (i.op,i.op.text.length)
    ?_ ?_ ?_ ?_ ?_ ?_ ?_ ?_ ?_
  · rw [hset] at h
    exact h
  · rw [hbuf₁]
    cases hb : i.before with
    | nil => simpa [charAt] using hc0
    | cons b bs =>
      have hb' := hi.before b (by simp [hb])
      have : b ≠ 0 := hb'.elim (fun h => (isspace_ne h).1) fun h => by rw [h]; decide
      simpa [charAt] using this
  · rw [hbuf₁]
    exact skip_mid _ _ _ _ _ (fun b hb => by simpa using hi.before b hb) (by simp [hcs,hcc]) rfl
  · rw [hbuf₁,charAt_mid _ _ _ rfl]
    exact hc0
  · have hdrop : buf.drop ((pre ++ i.before).length+1) = k ++ (i.afterKey ++ (i.op.text ++ tail)) := by
      rw [hbuf₁,← List.drop_drop,List.drop_left]
      simp
    rw [hdrop]
    exact keyLength_append _ _ hkey hlast (afterKey_stops hi.afterKey hi.op tail)
  · have hbuf : buf = (pre ++ i.before ++ i.key) ++ i.afterKey ++ o::S := by
      rw [hbuf₂,← hS]
      simp
    rw [hbuf]
    exact skip_mid _ _ _ _ _ hi.afterKey hos (by simp [hck]; omega)
  · have hbuf : buf = (pre ++ i.before ++ i.key ++ i.afterKey) ++ o::S := by
      rw [hbuf₂,← hS]
      simp
    rw [hbuf,charAt_mid _ _ _ rfl]
    exact ho0
  · obtain ⟨t,T',hT,htne⟩ : ∃ t T', tail = t::T' ∧ t ≠ chr '=' := by
      cases ha : i.afterOp with
      | nil => exact ⟨chr '"',_,by simp only [tail,ha]; rfl,by decide⟩
      | cons a as =>
        exact ⟨a,_,by simp only [tail,ha]; rfl,(isspace_ne (hi.afterOp a (by simp [ha]))).2.1⟩
    rw [hbuf₂,hT]
    exact operator_text _ _ _ _ hi.op htne rfl
  · rw [hset]
    have hbuf : pre ++ i.before ++ i.key ++ 0::X ++ i.afterOp ++ chr '"'::T =
        (pre ++ i.before ++ i.key ++ 0::X) ++ i.afterOp ++ chr '"'::T := by simp
    rw [hbuf]
    exact skip_mid _ _ _ _ _ hi.afterOp (by decide) (by simp; omega)
  · rw [hset]
    exact charAt_mid _ _ _ rfl

/-- One call takes one item: what lies before and after it in the buffer is kept, and
the key and the value can be read whatever comes to stand after the item. -/
theorem getKey_item (i : Item) (hi : i.Readable) (hlast : i.value.getLast? ≠ some (chr '\\'))
    (pre rest : List UInt8) :
    ∃ mid k v, mid.length = i.print.length ∧
      getKey (pre ++ i.print ++ rest) pre.length =
        some { buf := pre ++ mid ++ rest, line := (pre ++ mid).length, key := k, op := i.op, value := v } ∧
      ∀ rest', cstr (pre ++ mid ++ rest') k = i.key ∧ cstr (pre ++ mid ++ rest') v = i.value := by
  obtain ⟨X,hXlen,hget⟩ := getKey_value i hi pre (escape i.value ++ [chr '"'] ++ rest)
  obtain ⟨Z,hZ,hZlen⟩ := parseValue_quoted i.value hi.value hlast
    (pre ++ i.before ++ i.key ++ 0::X ++ i.afterOp) rest rfl
  have hbuf : pre ++ i.print ++ rest = pre ++ i.before ++ i.key ++ i.afterKey ++ i.op.text ++ i.afterOp ++
      chr '"'::(escape i.value ++ [chr '"'] ++ rest) := by simp [Item.print]
  have hbuf' : pre ++ i.before ++ i.key ++ 0::X ++ i.afterOp ++ chr '"'::(escape i.value ++ [chr '"'] ++ rest) =
      pre ++ i.before ++ i.key ++ 0::X ++ i.afterOp ++ chr '"'::escape i.value ++ [chr '"'] ++ rest := by simp
  refine ⟨i.before ++ i.key ++ 0::X ++ i.afterOp ++ chr '"'::i.value ++ 0::Z,
    (pre ++ i.before).length,(pre ++ i.before ++ i.key ++ 0::X ++ i.afterOp).length+1,?_,?_,?_⟩
  · simp [Item.print] at hZlen ⊢
    omega
  · rw [hbuf,hget,hbuf',hZ,Option.map_some]
    simp at hZlen ⊢
    omega
  · intro rest'
    have hkey₀ : ∀ c ∈ i.key, c ≠ 0 := fun c hc => (hi.key c hc).1
    constructor
    · have := cstr_mid (pre ++ i.before) i.key (X ++ i.afterOp ++ chr '"'::i.value ++ 0::Z ++ rest') hkey₀ rfl
      simpa using this
    · have := cstr_mid (pre ++ i.before ++ i.key ++ 0::X ++ i.afterOp ++ [chr '"']) i.value (Z ++ rest')
        hi.value (n := (pre ++ i.before ++ i.key ++ 0::X ++ i.afterOp).length+1) (by simp; omega)
      simpa using this

theorem getKey_open (i : Item) (hi : i.Readable) (hlast : i.value.getLast? = some (chr '\\')) (pre rest : List UInt8)
    (hrest : chr '"' ∉ rest) : getKey (pre ++ i.print ++ rest) pre.length = none := by
  obtain ⟨v,hv⟩ : ∃ v, i.value = v ++ [chr '\\'] := List.getLast?_eq_some_iff.mp hlast
  have hnul : ∀ c ∈ v, c ≠ 0 := fun c hc => hi.value c (by simp [hv,hc])
  obtain ⟨X,-,hget⟩ := getKey_value i hi pre (escape (v ++ [chr '\\']) ++ [chr '"'] ++ rest)
  have hbuf : pre ++ i.print ++ rest = pre ++ i.before ++ i.key ++ i.afterKey ++ i.op.text ++ i.afterOp ++
      chr '"'::(escape (v ++ [chr '\\']) ++ [chr '"'] ++ rest) := by simp [Item.print,hv]
  rw [hbuf,hget,parseValue_open v hnul _ rest hrest,Option.map_none]

theorem getKeys_items (items : List Item) (h : ∀ i ∈ items, i.WellFormed) (pre rest : List UInt8)
    (found : List Found) :
    ∃ mid fs, mid.length = (items.flatMap Item.print).length ∧
      getKeys items.length { buf := pre ++ items.flatMap Item.print ++ rest, line := pre.length, found := found } =
        some { buf := pre ++ mid ++ rest, line := (pre ++ mid).length, found := found ++ fs } ∧
      ∀ rest', fs.map (fun r => (cstr (pre ++ mid ++ rest') r.key,r.op,cstr (pre ++ mid ++ rest') r.value)) =
        items.map Item.triple := by
  induction items generalizing pre found with
  | nil => exact ⟨[],[],rfl,by simp [getKeys],by simp⟩
  | cons i is ih =>
    obtain ⟨mid,k,v,hlen,hget,hread⟩ :=
      getKey_item i (h i (by simp)).readable (h i (by simp)).value_last pre (is.flatMap Item.print ++ rest)
    let r : Found :=
      { buf := pre ++ mid ++ (is.flatMap Item.print ++ rest), line := (pre ++ mid).length, key := k,
        op := i.op, value := v }
    obtain ⟨mid',fs,hlen',hget',hread'⟩ := ih (fun j hj => h j (by simp [hj])) (pre ++ mid) (found ++ [r])
    refine ⟨mid ++ mid',r::fs,by simp [hlen,hlen'],?_,fun rest' => ?_⟩
    · have hbuf : pre ++ (i::is).flatMap Item.print ++ rest =
          pre ++ i.print ++ (is.flatMap Item.print ++ rest) := by simp
      simp only [List.length_cons,getKeys,hbuf,hget,Option.bind_some]
      have hbuf' : r.buf = pre ++ mid ++ is.flatMap Item.print ++ rest := by simp [r]
      have hget'' := hget'
      rw [← hbuf'] at hget''
      simpa [r] using hget''
    · have h₁ := hread (mid' ++ rest')
      have h₂ := hread' rest'
      simp only [List.append_assoc] at h₁ h₂ ⊢
      rw [List.map_cons,List.map_cons,h₂,h₁.1,h₁.2]
      rfl

theorem getKey_newline (buf : List UInt8) {line : ℕ} (h : buf.drop line = [chr '\n']) :
    getKey buf line = none := by
  have hsplit : buf = buf.take line ++ [chr '\n'] := by rw [← h,List.take_append_drop]
  have hlen : line = (buf.take line).length := by
    have := congrArg List.length h
    simp at this ⊢
    omega
  have hskip : skip (fun c => isspace c || c == chr ',') buf line = buf.length := by
    have h' := congrArg List.length hsplit
    have hw : [chr '\n'].takeWhile (fun c => isspace c || c == chr ',') = [chr '\n'] := by decide
    rw [skip,h,hw,h',List.length_append,← hlen]
  have hend : charAt buf buf.length = 0 := by simp [charAt]
  have hstart : charAt buf line ≠ 0 := by
    rw [hsplit,charAt_mid _ _ _ hlen]
    decide
  simp [getKey,hstart,hskip,hend]

/-- The round trip: after any number of calls the triples returned so far read as they
were printed and the text of the items to come is unchanged; after the last item the
call fails with the newline left. -/
theorem rule_line_round_trip (items : List Item) (h : ∀ i ∈ items, i.WellFormed) :
    (∀ as bs, items = as ++ bs → ∃ s, getKeys as.length { buf := printLine items } = some s ∧
      s.triples = as.map Item.triple ∧ s.buf.drop s.line = printLine bs ∧
      (printLine items).drop s.line = printLine bs) ∧
    ∃ s, getKeys items.length { buf := printLine items } = some s ∧ s.triples = items.map Item.triple ∧
      s.buf.drop s.line = [chr '\n'] ∧ getKey s.buf s.line = none := by
  have hall : ∀ as bs, items = as ++ bs → ∃ s, getKeys as.length { buf := printLine items } = some s ∧
      s.triples = as.map Item.triple ∧ s.buf.drop s.line = printLine bs ∧
      (printLine items).drop s.line = printLine bs := by
    rintro as bs rfl
    obtain ⟨mid,fs,hlen,hget,hread⟩ :=
      getKeys_items as (fun i hi => h i (by simp [hi])) [] (printLine bs) []
    have hbuf : printLine (as ++ bs) = as.flatMap Item.print ++ printLine bs := by simp [printLine]
    refine ⟨_,by simpa [hbuf] using hget,?_,?_,?_⟩
    · simpa [Scan.triples] using hread (printLine bs)
    · simp
    · simp [hbuf,hlen]
  refine ⟨hall,?_⟩
  obtain ⟨s,hget,htriples,hdrop,_⟩ := hall items [] (by simp)
  exact ⟨s,hget,htriples,hdrop,getKey_newline s.buf hdrop⟩

theorem rule_line_round_trip_kernel_symlink :
    ∃ s, getKeys 2 { buf := str " KERNEL == \"sd*\",\tSYMLINK+=\"a\\\"b\"\n" } = some s ∧
      s.triples = [(str "KERNEL",.opMatch,str "sd*"),(str "SYMLINK",.opAdd,str "a\"b")] ∧
      getKey s.buf s.line = none := by
  obtain ⟨s,hget,htriples,_,hnone⟩ := (rule_line_round_trip
    [{ before := str " ", key := str "KERNEL", afterKey := str " ", op := .opMatch, afterOp := str " ",
       value := str "sd*" },
     { before := str ",\t", key := str "SYMLINK", op := .opAdd, value := str "a\"b" }] (by decide)).2
  exact ⟨s,hget,htriples,hnone⟩

end RoundTrip
end Udev
