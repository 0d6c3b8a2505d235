import Udev.UsbNames
import Udev.Utf8

/-! Names of device nodes. An encoded name is read back by its escapes, whatever it was made from.
`util_replace_chars` keeps what is safe, and what it puts in for the rest is safe too. -/
namespace Udev
namespace DeviceNodes

open CString Text Memory DevPath UsbNames

section Encode

inductive NamePiece : CString → Prop
  | plain (c : UInt8) (hascii : c < 0x80) (hwhite : whitelistedCharForDevnode c none = true) : NamePiece [c]
  | escape (c : UInt8) : NamePiece (charEncode c)
  | sequence (p : CString) (hp : ValidSequence p) : NamePiece p

/-- What the encoding of a name in a buffer promises. -/
structure NameEncoded (s : CString) (len : ℕ) (r : Bool × Cursor) : Prop where
  inside : ∀ i ∈ r.2.writes, i < len
  result : r.1 = true ↔ (nameEncoding s).length+1 ≤ len
  text : r.1 = true → r.2.mem.text len = nameEncoding s
  form : r.1 = true → ∃ ps : List CString, r.2.mem.text len = ps.flatten ∧ ∀ p ∈ ps, NamePiece p
  decoded : r.1 = true → decode 0 (r.2.mem.text len) = s

variable {c : UInt8} {s p : CString}

theorem whitelisted_ascii : ∀ c : UInt8, whitelistedCharForDevnode c none = true → c < 0x80 ∧ c ≠ chr '\\' :=
  forall_byte (by decide +kernel)

theorem namePiece_pieces (n : ℕ) (s : CString) : ∀ p ∈ pieces n s, NamePiece p := by
  induction s generalizing n with
  | nil =>
    cases n <;> exact fun _ h => absurd h List.not_mem_nil
  | cons c s ih =>
    cases n with
    | succ n => exact ih n
    | zero =>
      intro p hp
      rw [pieces] at hp
      split_ifs at hp with hseq hesc
      · rcases List.mem_cons.mp hp with rfl | hp
        · exact .sequence _ (validSequence_take hseq)
        · exact ih _ p hp
      · rcases List.mem_cons.mp hp with rfl | hp
        · exact .escape c
        · exact ih 0 p hp
      · rcases List.mem_cons.mp hp with rfl | hp
        · have hwhite : whitelistedCharForDevnode c none = true := not_not.mp (not_or.mp hesc).2
          exact .plain c (whitelisted_ascii c hwhite).1 hwhite
        · exact ih 0 p hp

/-- Behind the bytes that are passed over, the encoding is decoded to the string. -/
theorem decode_pieces (n : ℕ) (s : CString) : decode 0 (pieces n s).flatten = s.drop n := by
  induction s generalizing n with
  | nil =>
    cases n <;> rfl
  | cons c s ih =>
    cases n with
    | succ n => exact ih n
    | zero =>
      rw [pieces]
      split_ifs with hseq hesc
      · have hplain : chr '\\' ∉ (c::s).take (utf8EncodedValidUnichar (c::s)) :=
          fun h => absurd ((validSequence_take hseq).high _ h) (by decide)
        obtain ⟨k,hk⟩ : ∃ k, utf8EncodedValidUnichar (c::s) = k+1 := ⟨_,(Nat.succ_pred (by omega)).symm⟩
        rw [List.flatten_cons,decode_plain hplain,ih,hk]
        exact List.take_append_drop (k+1) (c::s)
      · rw [List.flatten_cons,decode_charEncode,ih]
        rfl
      · have hplain : chr '\\' ∉ [c] := fun h => hesc (Or.inl (List.mem_singleton.mp h).symm)
        rw [List.flatten_cons,decode_plain hplain,ih]
        rfl

theorem decode_nameEncoding (s : CString) : decode 0 (nameEncoding s) = s := decode_pieces 0 s

theorem nameEncoded (mem : Memory) (s : CString) (len : ℕ) : NameEncoded s len (encodeDevnodeName mem s len) := by
  have hfilled := encodeDevnodeName_filled mem s len
  by_cases hfit : (nameEncoding s).length < len
  · rw [if_pos hfit] at hfilled
    obtain ⟨hok,hfilled⟩ := hfilled
    have htext : (encodeDevnodeName mem s len).2.mem.text len = nameEncoding s :=
      hfilled.holds.left.text hfilled.holds.last (nul_pieces 0 s) hfit
    constructor
    · intro i hi
      rw [hfilled.writes,List.mem_range,List.length_append,List.length_singleton] at hi
      omega
    · exact iff_of_true hok hfit
    · exact fun _ => htext
    · exact fun _ => ⟨pieces 0 s,htext,namePiece_pieces 0 s⟩
    · intro _
      rw [htext,decode_nameEncoding]
  · rw [if_neg hfit] at hfilled
    obtain ⟨hfail,hfilled⟩ := hfilled
    have hnot : ¬(encodeDevnodeName mem s len).1 = true := by
      rw [hfail]
      exact Bool.noConfusion
    constructor
    · intro i hi
      have hlen := fitting_length len (pieces 0 s)
      rw [hfilled.writes,List.mem_range] at hi
      omega
    · exact iff_of_false hnot hfit
    · exact fun h => absurd h hnot
    · exact fun h => absurd h hnot
    · exact fun h => absurd h hnot

/-- Every name is encoded inside of its buffer, and one to one. -/
theorem encode_devnode_name :
    (∀ (mem : Memory) (s : CString) (len : ℕ), NameEncoded s len (encodeDevnodeName mem s len)) ∧
    ∀ (mem mem' : Memory) (s t : CString) (len len' : ℕ), (encodeDevnodeName mem s len).1 = true →
      (encodeDevnodeName mem' t len').1 = true →
      (encodeDevnodeName mem s len).2.mem.text len = (encodeDevnodeName mem' t len').2.mem.text len' → s = t := by
  refine ⟨nameEncoded,?_⟩
  intro mem mem' s t len len' hs ht heq
  rw [← (nameEncoded mem s len).decoded hs,heq,(nameEncoded mem' t len').decoded ht]

example : nameEncoding (str "s/ash\\ng") = str "s\\x2fash\\x5cng" := by decide +kernel

end Encode

section Replace

/-- `util_replace_chars` with its result; the first argument counts the bytes that are passed over. -/
def replaceLoop (white : Option CString) : ℕ → CString → ℤ → CString × ℤ
  | _, [], replaced => ([],replaced)
  | n+1, c::str, replaced => Prod.map (c::·) id (replaceLoop white n str replaced)
  | 0, c::str, replaced =>
    if whitelistedCharForDevnode c white then Prod.map (c::·) id (replaceLoop white 0 str replaced)
    else if c = chr '\\' ∧ charAt str 0 = chr 'x' then Prod.map (c::·) id (replaceLoop white 1 str replaced)
    else if utf8EncodedValidUnichar (c::str) > 1 then
      Prod.map (c::·) id (replaceLoop white (utf8EncodedValidUnichar (c::str)-1) str replaced)
    else if isspace c ∧ (white.any fun w => (strchr w (chr ' ')).isSome) then
      Prod.map (chr ' '::·) id (replaceLoop white 0 str (toInt32 (replaced+1)))
    else Prod.map (chr '_'::·) id (replaceLoop white 0 str (toInt32 (replaced+1)))

def replaceRun (white : Option CString) (s : CString) : CString × ℤ := replaceLoop white 0 s 0

inductive SafePiece (white : Option CString) : CString → Prop
  | plain (c : UInt8) (hwhite : whitelistedCharForDevnode c white = true) : SafePiece white [c]
  | pair : SafePiece white (str "\\x")
  | sequence (p : CString) (hp : ValidSequence p) : SafePiece white p

def Safe (white : Option CString) (s : CString) : Prop :=
  ∃ ps : List CString, s = ps.flatten ∧ ∀ p ∈ ps, SafePiece white p

def changed (s t : CString) : ℕ := (s.zip t).countP fun q => q.1 ≠ q.2

/-- What `util_replace_chars` promises; `count` is what it returns for a number of changes. -/
structure ReplaceRight (count : ℕ → ℤ) (white : Option CString) (s : CString) (r : CString × ℤ) : Prop where
  length : r.1.length = s.length
  result : r.2 = count (changed s r.1)
  safe : Safe white r.1
  kept : Safe white s → r.1 = s
  idempotent : (replaceRun white r.1).1 = r.1

variable {white : Option CString} {c d : UInt8} {s t p : CString} {r : ℤ}

theorem replaceLoop_string (white : Option CString) (n : ℕ) (s : CString) (r : ℤ) :
    (replaceLoop white n s r).1 = replaceChars white n s := by
  induction s generalizing n r with
  | nil => cases n <;> rfl
  | cons c s ih =>
    cases n with
    | succ n => exact congrArg _ (ih n r)
    | zero =>
      rw [replaceLoop,replaceChars]
      split_ifs
      all_goals exact congrArg _ (ih _ _)

variable (white) in
theorem replaceLoop_skip (p t : CString) (r : ℤ) :
    replaceLoop white p.length (p ++ t) r = Prod.map (p ++ ·) id (replaceLoop white 0 t r) := by
  induction p with
  | nil => rfl
  | cons c p ih =>
    show Prod.map (c::·) id (replaceLoop white p.length (p ++ t) r) = _
    rw [ih]
    rfl

theorem whitelisted_eq (c : UInt8) (white : Option CString) : whitelistedCharForDevnode c white =
    (whitelistedCharForDevnode c none || white.any fun w => (strchr w c).isSome) := by
  rw [whitelistedCharForDevnode,whitelistedCharForDevnode,Option.any_none,Bool.or_false]

theorem whitelisted_of_none (white : Option CString) (h : whitelistedCharForDevnode c none = true) :
    whitelistedCharForDevnode c white = true := by
  rw [whitelisted_eq,h]
  rfl

theorem ascii_of_whitelisted (hwhite : ∀ w ∈ white, ∀ c ∈ w, c < 0x80) (h : whitelistedCharForDevnode c white = true) :
    c < 0x80 := by
  rw [whitelisted_eq,Bool.or_eq_true] at h
  rcases h with h | h
  · exact (whitelisted_ascii c h).1
  · obtain ⟨w,hw,h⟩ := (Option.any_eq_true _ _).mp h
    exact hwhite w hw c (strchr_isSome.mp h)

theorem replaceLoop_piece (hwhite : ∀ w ∈ white, ∀ c ∈ w, c < 0x80) (hp : SafePiece white p) (t : CString) (r : ℤ) :
    replaceLoop white 0 (p ++ t) r = Prod.map (p ++ ·) id (replaceLoop white 0 t r) := by
  cases hp with
  | plain c hc => exact if_pos hc
  | pair =>
    have hx : whitelistedCharForDevnode (chr 'x') white = true := whitelisted_of_none white rfl
    show replaceLoop white 0 (chr '\\'::chr 'x'::t) r = _
    rw [replaceLoop]
    by_cases hback : whitelistedCharForDevnode (chr '\\') white = true
    · rw [if_pos hback,replaceLoop,if_pos hx]
      rfl
    · rw [if_neg hback,if_pos ⟨rfl,rfl⟩]
      rfl
  | sequence p hp =>
    obtain ⟨hlen,hone⟩ := validUnichar_append hp t
    cases p with
    | nil => exact absurd hone (Nat.not_lt_zero _)
    | cons b q =>
      have hhigh := hp.high b List.mem_cons_self
      have hnot : ¬whitelistedCharForDevnode b white = true :=
        fun h => Nat.not_lt_of_le hhigh (UInt8.lt_iff_toNat_lt.mp (ascii_of_whitelisted hwhite h))
      have hback : ¬(b = chr '\\' ∧ charAt (q ++ t) 0 = chr 'x') := by
        rintro ⟨rfl,-⟩
        exact absurd hhigh (by decide)
      rw [List.cons_append] at hlen ⊢
      rw [replaceLoop,if_neg hnot,if_neg hback,hlen,if_pos hone,List.length_cons,Nat.add_sub_cancel,replaceLoop_skip]
      rfl

theorem replaceLoop_pieces (hwhite : ∀ w ∈ white, ∀ c ∈ w, c < 0x80) {ps : List CString} (hps : ∀ p ∈ ps, SafePiece white p)
    (r : ℤ) : replaceLoop white 0 ps.flatten r = (ps.flatten,r) := by
  induction ps with
  | nil => rfl
  | cons p ps ih =>
    rw [List.flatten_cons,replaceLoop_piece hwhite (hps p List.mem_cons_self),ih fun q hq => hps q (List.mem_cons_of_mem _ hq)]
    rfl

variable (white) in
/-- One step: a safe piece stays, or a character is replaced by a safe one. -/
theorem replaceLoop_step (c : UInt8) (s : CString) (r : ℤ) :
    (∃ p t, c::s = p ++ t ∧ t.length ≤ s.length ∧ SafePiece white p ∧
      replaceLoop white 0 (c::s) r = Prod.map (p ++ ·) id (replaceLoop white 0 t r)) ∨
    ∃ d, c ≠ d ∧ SafePiece white [d] ∧
      replaceLoop white 0 (c::s) r = Prod.map (d::·) id (replaceLoop white 0 s (toInt32 (r+1))) := by
  rw [replaceLoop]
  by_cases hplain : whitelistedCharForDevnode c white = true
  · exact Or.inl ⟨[c],s,rfl,Nat.le_refl _,.plain c hplain,if_pos hplain⟩
  rw [if_neg hplain]
  by_cases hpair : c = chr '\\' ∧ charAt s 0 = chr 'x'
  · rw [if_pos hpair]
    obtain ⟨rfl,hx⟩ := hpair
    cases s with
    | nil => exact absurd hx (by decide)
    | cons x s =>
      obtain rfl : x = chr 'x' := hx
      exact Or.inl ⟨str "\\x",s,rfl,Nat.le_succ _,.pair,rfl⟩
  rw [if_neg hpair]
  by_cases hseq : utf8EncodedValidUnichar (c::s) > 1
  · rw [if_pos hseq]
    refine Or.inl ⟨(c::s).take (utf8EncodedValidUnichar (c::s)),(c::s).drop (utf8EncodedValidUnichar (c::s)),
      (List.take_append_drop _ _).symm,?_,.sequence _ (validSequence_take hseq),?_⟩
    · rw [List.length_drop,List.length_cons]
      omega
    · obtain ⟨k,hk⟩ : ∃ k, utf8EncodedValidUnichar (c::s) = k+1 := ⟨_,(Nat.succ_pred (by omega)).symm⟩
      have hle := validUnichar_le hseq
      rw [hk,List.length_cons] at hle
      have htake : (s.take k).length = k := List.length_take_of_le (by omega)
      have hskip := replaceLoop_skip white (s.take k) (s.drop k) r
      rw [htake,List.take_append_drop] at hskip
      rw [hk,Nat.add_sub_cancel,hskip]
      rfl
  rw [if_neg hseq]
  by_cases hspace : isspace c = true ∧ (white.any fun w => (strchr w (chr ' ')).isSome) = true
  · have hmem : whitelistedCharForDevnode (chr ' ') white = true := by
      rw [whitelisted_eq,hspace.2,Bool.or_true]
    rw [if_pos hspace]
    refine Or.inr ⟨chr ' ',?_,.plain _ hmem,rfl⟩
    rintro rfl
    exact hplain hmem
  · have hsafe : whitelistedCharForDevnode (chr '_') white = true := whitelisted_of_none white rfl
    rw [if_neg hspace]
    refine Or.inr ⟨chr '_',?_,.plain _ hsafe,rfl⟩
    rintro rfl
    exact hplain hsafe

theorem changed_append (p t t' : CString) : changed (p ++ t) (p ++ t') = changed t t' := by
  induction p with
  | nil => rfl
  | cons c p ih =>
    have hsame : changed (c::(p ++ t)) (c::(p ++ t')) = changed (p ++ t) (p ++ t') :=
      List.countP_cons_of_neg fun h => of_decide_eq_true h rfl
    exact hsame.trans ih

theorem changed_cons (h : c ≠ d) (s t : CString) : changed (c::s) (d::t) = changed s t+1 :=
  List.countP_cons_of_pos (decide_eq_true h)

theorem Safe.append (hp : SafePiece white p) (ht : Safe white t) : Safe white (p ++ t) := by
  obtain ⟨ps,rfl,hps⟩ := ht
  exact ⟨p::ps,rfl,List.forall_mem_cons.mpr ⟨hp,hps⟩⟩

theorem toInt32_add (r : ℤ) : toInt32 (toInt32 r+1) = toInt32 (r+1) := Int.bmod_add_bmod

theorem replaceLoop_spec (white : Option CString) (s : CString) (r : ℤ) :
    (replaceLoop white 0 s (toInt32 r)).1.length = s.length ∧
    (replaceLoop white 0 s (toInt32 r)).2 = toInt32 (r+changed s (replaceLoop white 0 s (toInt32 r)).1) ∧
    Safe white (replaceLoop white 0 s (toInt32 r)).1 := by
  obtain ⟨n,hn⟩ : ∃ n, s.length ≤ n := ⟨_,Nat.le_refl _⟩
  induction n generalizing s r with
  | zero =>
    obtain rfl := List.length_eq_zero_iff.mp (Nat.le_zero.mp hn)
    refine ⟨rfl,?_,[],rfl,fun _ h => absurd h List.not_mem_nil⟩
    exact congrArg toInt32 (Int.add_zero r).symm
  | succ n ih =>
    cases s with
    | nil => exact ih [] r (Nat.zero_le n)
    | cons c s =>
      rw [List.length_cons] at hn
      rcases replaceLoop_step white c s (toInt32 r) with ⟨p,t,hsplit,hlen,hp,hrun⟩ | ⟨d,hne,hd,hrun⟩
      · obtain ⟨hlength,hcount,hsafe⟩ := ih t r (by omega)
        rw [hrun,hsplit]
        refine ⟨?_,?_,hsafe.append hp⟩
        · rw [Prod.map_fst,List.length_append,List.length_append,hlength]
        · rw [Prod.map_fst,Prod.map_snd,changed_append]
          exact hcount
      · obtain ⟨hlength,hcount,hsafe⟩ := ih s (r+1) (by omega)
        rw [hrun,toInt32_add]
        refine ⟨?_,?_,hsafe.append hd⟩
        · rw [Prod.map_fst,List.length_cons,List.length_cons,hlength]
        · rw [Prod.map_fst,Prod.map_snd,changed_cons hne]
          refine hcount.trans (congrArg toInt32 ?_)
          omega

/-- `util_replace_chars` returns the number of positions that it changed as an `int`, keeps what is safe, and
what it leaves is safe. -/
theorem replace_chars (hwhite : ∀ w ∈ white, ∀ c ∈ w, c < 0x80) (s : CString) :
    ReplaceRight (fun n => toInt32 n) white s (replaceRun white s) := by
  have hkept : ∀ t, Safe white t → (replaceRun white t).1 = t := by
    rintro t ⟨ps,rfl,hps⟩
    rw [replaceRun,replaceLoop_pieces hwhite hps]
  obtain ⟨hlength,hcount,hsafe⟩ := replaceLoop_spec white s 0
  rw [Int.zero_add] at hcount
  exact ⟨hlength,hcount,hsafe,hkept s,hkept _ hsafe⟩

theorem replace_chars_slash : ReplaceRight (fun n => toInt32 n) (some (str "/ ")) (str "a\tb#/*")
    (replaceRun (some (str "/ ")) (str "a\tb#/*")) := by
  refine replace_chars ?_ _
  intro w hw
  obtain rfl := Option.some.inj hw
  decide +kernel

example : replaceRun (some (str "/ ")) (str "a\tb#/*") = (str "a b#/_",2) := by decide +kernel

theorem changed_tabs (n : ℕ) (r : ℤ) :
    changed (List.replicate n 9) (replaceLoop none 0 (List.replicate n 9) r).1 = n := by
  induction n generalizing r with
  | zero => rfl
  | succ n ih =>
    have hplain : ¬whitelistedCharForDevnode 9 none = true := by decide
    have hpair : ¬((9 : UInt8) = chr '\\' ∧ charAt (List.replicate n 9) 0 = chr 'x') := by
      rintro ⟨h,-⟩
      exact absurd h (by decide)
    have hseq : ¬utf8EncodedValidUnichar (9::List.replicate n 9) > 1 := Nat.lt_irrefl 1
    have hspace : ¬(isspace 9 = true ∧ ((none : Option CString).any fun w => (strchr w (chr ' ')).isSome) = true) := by
      rintro ⟨-,h⟩
      cases h
    have hne : (9 : UInt8) ≠ chr '_' := by decide
    rw [List.replicate_succ,replaceLoop,if_neg hplain,if_neg hpair,if_neg hseq,if_neg hspace,Prod.map_fst,changed_cons hne,ih]

/-- With 2147483648 tabs the number of changes does not fit an `int`. -/
theorem replace_chars_overflow :
    ¬ReplaceRight (fun n => n) none (List.replicate (2^31) 9) (replaceRun none (List.replicate (2^31) 9)) := by
  intro h
  have hint := (replaceLoop_spec none (List.replicate (2^31) 9) 0).2.1
  have hnumber := h.result
  have hzero : toInt32 0 = 0 := rfl
  rw [hzero,Int.zero_add] at hint
  rw [replaceRun,hint,changed_tabs] at hnumber
  exact absurd hnumber (by decide)

end Replace

end DeviceNodes
end Udev
