import Udev.Event

/-! What the expansion of a text stands for, apart from the loop that computes it. A scan
reads the text piece by piece: a character, or a specifier with its attribute. The text
that a piece stands for is not read again. -/
namespace Udev
namespace Rules

open CString Text

/-- A piece of an expansion: a character, or the parts of the value of a specifier. -/
inductive Piece
  | char (c : UInt8)
  | value (parts : List CString)

namespace Piece

def text : Piece → CString
  | char c => [c]
  | value parts => parts.flatten

def texts (ps : List Piece) : CString := ps.flatMap text

@[simp] theorem texts_nil : texts [] = [] := rfl

@[simp] theorem texts_cons (p : Piece) (ps : List Piece) : texts (p::ps) = p.text ++ texts ps := rfl

end Piece

open Piece

abbrev SubstRow := CString × UInt8 × SubstType

def FirstRow (p : SubstRow → Prop) (m : SubstRow) : Prop :=
  p m ∧ ∃ before after, substMap = before ++ m::after ∧ ∀ m' ∈ before, ¬p m'

/-- The text begins with a specifier: `$` and a name, or `%` and a letter. -/
inductive Specifier : CString → SubstType → CString → Prop
  | name {m : SubstRow} {text tail : CString} (hrow : FirstRow (fun m => m.1 <+: text) m)
      (htext : text = m.1 ++ tail) : Specifier (chr '$'::text) m.2.2 tail
  | letter {m : SubstRow} {c : UInt8} {tail : CString} (hrow : FirstRow (fun m => c = m.2.1) m) :
      Specifier (chr '%'::c::tail) m.2.2 tail

inductive Braces : CString → Option CString → CString → Prop
  | none {tail : CString} (hopen : charAt tail 0 ≠ chr '{') : Braces tail none tail
  | some {a rest : CString} (hclose : chr '}' ∉ a) (hlen : a.length < utilPathSize) :
      Braces (chr '{'::(a ++ chr '}'::rest)) (some a) rest

theorem substMap_names : ∀ m ∈ substMap, m.1 ≠ [] ∧ chr '$' ∉ m.1 ∧ chr '{' ∉ m.1 := by decide

theorem substMap_letters : ∀ m ∈ substMap, m.2.1 ≠ 0 ∧ m.2.1 ≠ chr '%' := by decide

theorem find_firstRow {p : SubstRow → Prop} [DecidablePred p] {m : SubstRow} :
    substMap.find? (fun m => decide (p m)) = some m ↔ FirstRow p m := by
  rw [List.find?_eq_some_iff_append,FirstRow]
  simp

theorem FirstRow.mem {p : SubstRow → Prop} {m : SubstRow} (h : FirstRow p m) : m ∈ substMap := by
  obtain ⟨-,before,after,heq,-⟩ := h
  rw [heq]
  exact List.mem_append_right _ List.mem_cons_self

theorem substAt_cons (c : UInt8) (text : CString) :
    substAt (c::text) =
      if c = chr '$' ∧ charAt text 0 ≠ chr '$' then
        (substMap.find? fun m => decide (m.1 <+: text)).map fun m => (m.2.2,text.drop m.1.length)
      else if c = chr '%' ∧ charAt text 0 ≠ chr '%' then
        (substMap.find? fun m => decide (charAt text 0 = m.2.1)).map fun m => (m.2.2,text.drop 1)
      else none := by
  have hstarts : (fun m : SubstRow => startswith text m.1) = fun m => decide (m.1 <+: text) := by
    funext m
    exact Bool.eq_iff_iff.mpr (List.isPrefixOf_iff_prefix.trans decide_eq_true_iff.symm)
  rw [← hstarts]
  rfl

theorem substAt_eq_some {src tail : CString} {type : SubstType} :
    substAt src = some (type,tail) ↔ Specifier src type tail := by
  constructor
  · intro h
    cases src with
    | nil => cases h
    | cons c text =>
      rw [substAt_cons] at h
      split_ifs at h with hname hletter
      · obtain ⟨rfl,hdollar⟩ := hname
        obtain ⟨m,hm,heq⟩ := Option.map_eq_some_iff.mp h
        obtain ⟨rfl,rfl⟩ := Prod.mk.inj heq
        have hrow := find_firstRow.mp hm
        obtain ⟨rest,rfl⟩ := hrow.1
        rw [List.drop_left]
        exact .name hrow rfl
      · obtain ⟨rfl,hpercent⟩ := hletter
        obtain ⟨m,hm,heq⟩ := Option.map_eq_some_iff.mp h
        obtain ⟨rfl,rfl⟩ := Prod.mk.inj heq
        have hrow := find_firstRow.mp hm
        cases text with
        | nil => exact absurd hrow.1.symm (substMap_letters m hrow.mem).1
        | cons b tail => exact .letter hrow
  · intro h
    cases h with
    | @name m text _ hrow htext =>
      obtain ⟨hne,hdollar,-⟩ := substMap_names m hrow.mem
      have hhead : charAt text 0 ≠ chr '$' := by
        rw [htext]
        cases hm : m.1 with
        | nil => exact absurd hm hne
        | cons b name =>
          rintro rfl
          exact hdollar (hm ▸ List.mem_cons_self)
      rw [substAt_cons,if_pos ⟨rfl,hhead⟩,find_firstRow.mpr hrow]
      simp [htext]
    | @letter m c _ hrow =>
      have hpercent : charAt (c::tail) 0 ≠ chr '%' := by
        show c ≠ _
        rw [hrow.1]
        exact (substMap_letters m hrow.mem).2
      have hdollar : ¬(chr '%' = chr '$' ∧ charAt (c::tail) 0 ≠ chr '$') := fun h => absurd h.1 (by decide)
      rw [substAt_cons,if_neg hdollar,if_pos ⟨rfl,hpercent⟩]
      show (substMap.find? fun m => decide (c = m.2.1)).map _ = _
      rw [find_firstRow.mpr hrow]
      rfl

theorem substAttr_braces {a : CString} (hclose : chr '}' ∉ a) (rest : CString) :
    substAttr (chr '{'::(a ++ chr '}'::rest)) = if a.length < utilPathSize then some (some a,rest) else none := by
  show (strchr (a ++ chr '}'::rest) (chr '}')).bind _ = _
  rw [strchr_append hclose,Option.bind_some]
  dsimp only
  rw [List.drop_succ_cons,List.drop_zero,takeWhile_ne hclose]
  split_ifs with hlong hlen
  · omega
  · rfl
  · rfl
  · omega

theorem substAttr_eq_some {tail rest : CString} {attr : Option CString} :
    substAttr tail = some (attr,rest) ↔ Braces tail attr rest := by
  constructor
  · intro h
    unfold substAttr at h
    by_cases hopen : charAt tail 0 = chr '{'
    · rw [if_pos hopen] at h
      cases tail with
      | nil => exact absurd hopen (by decide)
      | cons b tail =>
        obtain rfl : b = chr '{' := hopen
        obtain ⟨r,hr,h⟩ := Option.bind_eq_some_iff.mp h
        obtain ⟨hsplit,r,rfl⟩ := strchr_eq_some hr
        simp only [List.drop_succ_cons,List.drop_zero] at h hsplit
        split_ifs at h with hlen
        obtain ⟨rfl,rfl⟩ := Prod.mk.inj (Option.some.inj h)
        have hclose : chr '}' ∉ tail.takeWhile (· ≠ chr '}') := fun hmem => by
          simpa using List.mem_takeWhile_imp hmem
        have heq : chr '{'::tail = chr '{'::(tail.takeWhile (· ≠ chr '}') ++ chr '}'::r) := congrArg _ hsplit
        rw [heq]
        exact .some hclose (Nat.lt_of_not_le hlen)
    · rw [if_neg hopen] at h
      obtain ⟨rfl,rfl⟩ := Prod.mk.inj (Option.some.inj h)
      exact .none hopen
  · intro h
    cases h with
    | none hopen => exact if_neg hopen
    | @some a rest hclose hlen => rw [substAttr_braces hclose,if_pos hlen]

section Scan

variable {σ : Type} (h : Host σ) (s : σ) (ev : Event)

/-- The next piece of a text: a doubled `$` or `%` is one character, a specifier with its
attribute stands for its value, and every other character for itself. -/
inductive Step : CString → Piece → CString → Prop
  | doubled {c : UInt8} (rest : CString) (hc : c = chr '$' ∨ c = chr '%') : Step (c::c::rest) (.char c) rest
  | subst {src tail rest : CString} {type : SubstType} {attr : Option CString}
      (hspec : Specifier src type tail) (hattr : Braces tail attr rest) :
      Step src (.value (substValue h s ev attr type)) rest
  | plain {c : UInt8} {rest : CString} (hspec : ∀ type tail, ¬Specifier (c::rest) type tail)
      (hdouble : ¬((c = chr '$' ∨ c = chr '%') ∧ charAt rest 0 = c)) : Step (c::rest) (.char c) rest

inductive Scan : CString → List Piece → CString → Prop
  | nil (src : CString) : Scan src [] src
  | cons {src mid rest : CString} {p : Piece} {ps : List Piece} (hstep : Step h s ev src p mid)
      (hscan : Scan mid ps rest) : Scan src (p::ps) rest

/-- Where the scan finds a specifier and a brace, the brace is closed and the attribute
fits its buffer. -/
def BracesClosed (src : CString) : Prop :=
  ∀ ps mid type tail, Scan h s ev src ps mid → Specifier mid type tail → ∃ attr rest, Braces tail attr rest

def charRest (c : UInt8) (cs : CString) : CString :=
  if (c = chr '$' ∨ c = chr '%') ∧ charAt cs 0 = c then cs.drop 1 else cs

theorem not_specifier {src : CString} (hnone : substAt src = none) (type : SubstType) (tail : CString) :
    ¬Specifier src type tail := fun hspec => by
  rw [← substAt_eq_some,hnone] at hspec
  cases hspec

theorem substAt_doubled {c : UInt8} (rest : CString) (hc : c = chr '$' ∨ c = chr '%') :
    substAt (c::c::rest) = none := by
  rw [substAt_cons]
  rcases hc with rfl | rfl
  · rw [if_neg fun hd => hd.2 rfl,if_neg fun hp => absurd hp.1 (by decide)]
  · rw [if_neg fun hd => absurd hd.1 (by decide),if_neg fun hp => hp.2 rfl]

variable {h s ev}

theorem step_char {c : UInt8} {cs : CString} (hnone : substAt (c::cs) = none) :
    Step h s ev (c::cs) (.char c) (charRest c cs) := by
  unfold charRest
  split_ifs with hdouble
  · obtain ⟨hc,hnext⟩ := hdouble
    cases cs with
    | nil =>
      have hnul : c = 0 := hnext.symm
      rw [hnul] at hc
      exact absurd hc (by decide)
    | cons b rest =>
      obtain rfl : b = c := hnext
      exact .doubled rest hc
  · exact .plain (not_specifier hnone) hdouble

theorem Step.cases_char {src rest : CString} {p : Piece} (hstep : Step h s ev src p rest) :
    (∃ c cs, src = c::cs ∧ substAt src = none ∧ p = .char c ∧ rest = charRest c cs) ∨
    ∃ type tail attr, substAt src = some (type,tail) ∧ substAttr tail = some (attr,rest) ∧
      p = .value (substValue h s ev attr type) := by
  cases hstep with
  | @doubled c _ hc => exact Or.inl ⟨c,c::rest,rfl,substAt_doubled rest hc,rfl,(if_pos ⟨hc,rfl⟩).symm⟩
  | @subst _ tail _ type attr hspec hattr =>
    exact Or.inr ⟨type,tail,attr,substAt_eq_some.mpr hspec,substAttr_eq_some.mpr hattr,rfl⟩
  | @plain c _ hspec hdouble =>
    refine Or.inl ⟨c,rest,rfl,?_,rfl,(if_neg hdouble).symm⟩
    cases hat : substAt (c::rest) with
    | none => rfl
    | some r => exact absurd (substAt_eq_some.mp hat) (hspec r.1 r.2)

theorem Step.unique {src rest rest' : CString} {p p' : Piece} (hstep : Step h s ev src p rest)
    (hstep' : Step h s ev src p' rest') : p = p' ∧ rest = rest' := by
  rcases hstep.cases_char with ⟨c,cs,rfl,hnone,rfl,rfl⟩ | ⟨type,tail,attr,hat,hattr,rfl⟩ <;>
    rcases hstep'.cases_char with ⟨c',cs',heq,hnone',rfl,rfl⟩ | ⟨type',tail',attr',hat',hattr',rfl⟩
  · obtain ⟨rfl,rfl⟩ := List.cons.inj heq
    exact ⟨rfl,rfl⟩
  · rw [hnone] at hat'
    cases hat'
  · rw [hat] at hnone'
    cases hnone'
  · obtain ⟨rfl,rfl⟩ := Prod.mk.inj (Option.some.inj (hat.symm.trans hat'))
    obtain ⟨rfl,rfl⟩ := Prod.mk.inj (Option.some.inj (hattr.symm.trans hattr'))
    exact ⟨rfl,rfl⟩

theorem charRest_length (c : UInt8) (cs : CString) : (charRest c cs).length ≤ cs.length := by
  unfold charRest
  split_ifs
  · rw [List.length_drop]
    omega
  · exact le_rfl

theorem Braces.length_le {tail rest : CString} {attr : Option CString} (hbraces : Braces tail attr rest) :
    rest.length ≤ tail.length := by
  cases hbraces with
  | none _ => exact le_rfl
  | some _ _ =>
    simp only [List.length_cons,List.length_append]
    omega

theorem Specifier.length_lt {src tail : CString} {type : SubstType} (hspec : Specifier src type tail) :
    tail.length < src.length := by
  cases hspec with
  | name _ htext =>
    rw [htext]
    simp only [List.length_cons,List.length_append]
    omega
  | letter _ =>
    simp only [List.length_cons]
    omega

theorem Step.length_lt {src rest : CString} {p : Piece} (hstep : Step h s ev src p rest) :
    rest.length < src.length := by
  rcases hstep.cases_char with ⟨c,cs,rfl,-,-,rfl⟩ | ⟨type,tail,attr,hat,hattr,-⟩
  · exact Nat.lt_succ_of_le (charRest_length c cs)
  · exact (substAttr_eq_some.mp hattr).length_le.trans_lt (substAt_eq_some.mp hat).length_lt

theorem not_step_nil (p : Piece) (rest : CString) : ¬Step h s ev [] p rest := fun hstep =>
  absurd hstep.length_lt (Nat.not_lt_zero _)

theorem Scan.unique {src : CString} {ps ps' : List Piece} (hscan : Scan h s ev src ps [])
    (hscan' : Scan h s ev src ps' []) : ps = ps' := by
  induction ps generalizing src ps' with
  | nil =>
    cases hscan
    cases hscan' with
    | nil => rfl
    | cons hstep _ => exact absurd hstep (not_step_nil _ _)
  | cons p ps ih =>
    cases hscan with
    | cons hstep hscan =>
      cases hscan' with
      | nil => exact absurd hstep (not_step_nil _ _)
      | cons hstep' hscan' =>
        obtain ⟨rfl,rfl⟩ := hstep.unique hstep'
        rw [ih hscan hscan']

theorem exists_scan {src : CString} (hclosed : BracesClosed h s ev src) : ∃ ps, Scan h s ev src ps [] := by
  induction hn : src.length using Nat.strong_induction_on generalizing src with
  | _ n ih =>
    have hnext : ∀ {p rest}, Step h s ev src p rest → ∃ ps, Scan h s ev src ps [] := fun {p rest} hstep => by
      have hrest : BracesClosed h s ev rest := fun ps mid type tail hscan =>
        hclosed (p::ps) mid type tail (.cons hstep hscan)
      obtain ⟨ps,hps⟩ := ih rest.length (hn ▸ hstep.length_lt) hrest rfl
      exact ⟨p::ps,.cons hstep hps⟩
    cases src with
    | nil => exact ⟨[],.nil []⟩
    | cons c cs =>
      cases hat : substAt (c::cs) with
      | none => exact hnext (step_char hat)
      | some r =>
        have hspec := substAt_eq_some.mp (show substAt (c::cs) = some (r.1,r.2) from hat)
        obtain ⟨attr,rest,hbraces⟩ := hclosed [] _ _ _ (.nil _) hspec
        exact hnext (.subst hspec hbraces)

section Loop

variable (n : ℕ) (d : CString × ℕ) (read : Bool)

theorem formatLoop_nil : formatLoop h s ev n [] d read = (d.1,read) := by
  cases n <;> rfl

theorem formatLoop_end : (formatLoop h s ev n [] d read).1 = d.1 := by
  rw [formatLoop_nil]

theorem formatLoop_char {c : UInt8} {cs : CString} (hnone : substAt (c::cs) = none) :
    formatLoop h s ev (n+1) (c::cs) d read =
      if d.2 = 0 then (d.1,read) else formatLoop h s ev n (charRest c cs) (d.1 ++ [c],d.2-1) read := by
  rw [formatLoop,hnone]
  rfl

/-- The text is shorter than the number of rounds, so that the rounds do not run out. -/
theorem formatLoop_rounds {n n' : ℕ} {src : CString} (hn : src.length ≤ n) (hn' : src.length ≤ n') :
    formatLoop h s ev n src d read = formatLoop h s ev n' src d read := by
  induction n generalizing n' src d read with
  | zero =>
    obtain rfl := List.length_eq_zero_iff.mp (Nat.le_zero.mp hn)
    rw [formatLoop_nil,formatLoop_nil]
  | succ n ih =>
    cases src with
    | nil => rw [formatLoop_nil,formatLoop_nil]
    | cons c cs =>
      obtain ⟨n',rfl⟩ : ∃ k, n' = k+1 := ⟨n'-1,by rw [List.length_cons] at hn'; omega⟩
      rw [List.length_cons] at hn hn'
      cases hat : substAt (c::cs) with
      | none =>
        have hrest := charRest_length c cs
        rw [formatLoop_char n d read hat,formatLoop_char n' d read hat]
        split_ifs
        · rfl
        · exact ih _ read (by omega) (by omega)
      | some r =>
        have hlt := (substAt_eq_some.mp (show substAt (c::cs) = some (r.1,r.2) from hat)).length_lt
        rw [List.length_cons] at hlt
        rw [formatLoop_subst n d read hat,formatLoop_subst n' d read hat]
        cases hattr : substAttr r.2 with
        | none => rfl
        | some a =>
          have hle := (substAttr_eq_some.mp (show substAttr r.2 = some (a.1,a.2) from hattr)).length_le
          exact ih _ _ (by omega) (by omega)

theorem formatLoop_scan {src : CString} {ps : List Piece} (hscan : Scan h s ev src ps []) {n : ℕ}
    (hn : src.length ≤ n) (hfit : (texts ps).length < d.2) :
    (formatLoop h s ev n src d read).1 = d.1 ++ texts ps := by
  induction ps generalizing src n d read with
  | nil =>
    cases hscan
    rw [formatLoop_end,texts_nil,List.append_nil]
  | cons p ps ih =>
    cases hscan with
    | cons hstep hscan =>
      have hlt := hstep.length_lt
      obtain ⟨n,rfl⟩ : ∃ k, n = k+1 := ⟨n-1,by omega⟩
      rw [texts_cons,List.length_append] at hfit
      rcases hstep.cases_char with ⟨c,cs,rfl,hnone,rfl,rfl⟩ | ⟨type,tail,attr,hat,hattr,rfl⟩
      · have hroom : d.2 ≠ 0 := by omega
        rw [formatLoop_char n d read hnone,if_neg hroom,ih _ read hscan (by omega) (by simp [text] at hfit ⊢; omega),
          texts_cons,List.append_assoc]
        rfl
      · have hcopy : (substValue h s ev attr type).flatten.length < d.2 := by
          simp only [text] at hfit
          omega
        rw [formatLoop_subst n d read hat,hattr]
        dsimp only
        rw [foldl_strpcpy hcopy,ih _ _ hscan (by omega) (by simp only [text] at hfit ⊢; omega),texts_cons,
          List.append_assoc]
        rfl

end Loop

/-- A name in the table is found before any other name that begins like it. -/
theorem firstRow_name {m : SubstRow} (hm : m ∈ substMap) (rest : CString) :
    ∃ m', FirstRow (fun row => row.1 <+: m.1 ++ chr '{'::rest) m' ∧ m'.1 = m.1 ∧ m'.2.2 = m.2.2 := by
  have hname : ∀ m ∈ substMap, ∃ m', substMap.find? (fun row => decide (row.1 <+: m.1)) = some m' ∧
      m'.1 = m.1 ∧ m'.2.2 = m.2.2 := by decide
  have hrows : ∀ row ∈ substMap, row.1 <+: m.1 ++ chr '{'::rest ↔ row.1 <+: m.1 := by
    intro row hrow
    refine ⟨fun hpre => ?_,fun hpre => hpre.trans (List.prefix_append _ _)⟩
    rcases List.prefix_or_prefix_of_prefix hpre (List.prefix_append ..) with h | ⟨t,ht⟩
    · exact h
    · rw [← ht,List.prefix_append_right_inj] at hpre
      cases t with
      | nil => exact ⟨[],by rw [List.append_nil,← ht,List.append_nil]⟩
      | cons b t =>
        obtain rfl : b = chr '{' := (List.cons_prefix_cons.mp hpre).1
        exact absurd (ht ▸ List.mem_append_right _ List.mem_cons_self) (substMap_names row hrow).2.2
  obtain ⟨m',hfind,hsame⟩ := hname m hm
  refine ⟨m',?_,hsame⟩
  obtain ⟨hp,before,after,heq,hbefore⟩ := find_firstRow.mp hfind
  refine ⟨(hrows m' (heq ▸ List.mem_append_right _ List.mem_cons_self)).mpr hp,before,after,heq,fun row hrow => ?_⟩
  exact (hrows row (heq ▸ List.mem_append_left _ hrow)).not.mpr (hbefore row hrow)

theorem firstRow_letter {m : SubstRow} (hm : m ∈ substMap) :
    ∃ m', FirstRow (fun row => m.2.1 = row.2.1) m' ∧ m'.2.2 = m.2.2 := by
  have hletter : ∀ m ∈ substMap, ∃ m', substMap.find? (fun row => decide (m.2.1 = row.2.1)) = some m' ∧
      m'.2.2 = m.2.2 := by decide
  obtain ⟨m',hfind,hsame⟩ := hletter m hm
  exact ⟨m',find_firstRow.mp hfind,hsame⟩

/-- The two spellings of a row with an attribute expand to the same text. -/
theorem applyFormat_spellings {m : SubstRow} (hm : m ∈ substMap) (rest : CString) (size : ℕ) :
    applyFormat h s ev (chr '$'::(m.1 ++ chr '{'::rest)) size =
      applyFormat h s ev (chr '%'::m.2.1::chr '{'::rest) size := by
  obtain ⟨m₁,hrow₁,hname,htype₁⟩ := firstRow_name hm rest
  obtain ⟨m₂,hrow₂,htype₂⟩ := firstRow_letter hm
  have hat₁ : substAt (chr '$'::(m.1 ++ chr '{'::rest)) = some (m.2.2,chr '{'::rest) :=
    substAt_eq_some.mpr (htype₁ ▸ .name hrow₁ (by rw [hname]))
  have hat₂ : substAt (chr '%'::m.2.1::chr '{'::rest) = some (m.2.2,chr '{'::rest) :=
    substAt_eq_some.mpr (htype₂ ▸ .letter hrow₂)
  unfold applyFormat
  simp only [List.length_cons,List.length_append]
  rw [formatLoop_subst _ _ _ hat₁,formatLoop_subst _ _ _ hat₂]
  cases hattr : substAttr (chr '{'::rest) with
  | none => rfl
  | some a =>
    have hle := (substAttr_eq_some.mp (show substAttr (chr '{'::rest) = some (a.1,a.2) from hattr)).length_le
    rw [List.length_cons] at hle
    exact formatLoop_rounds _ _ (by omega) (by omega)

theorem Scan.split {src mid : CString} {ps ps' : List Piece} (hscan : Scan h s ev src ps [])
    (hscan' : Scan h s ev src ps' mid) : ∃ ps'', Scan h s ev mid ps'' [] := by
  induction hscan' generalizing ps with
  | nil src => exact ⟨ps,hscan⟩
  | cons hstep' _ ih =>
    cases hscan with
    | nil => exact absurd hstep' (not_step_nil _ _)
    | cons hstep hscan =>
      obtain ⟨-,rfl⟩ := hstep.unique hstep'
      exact ih hscan

/-- The braces are closed exactly in the texts that are scanned to their end. -/
theorem bracesClosed_iff {src : CString} : BracesClosed h s ev src ↔ ∃ ps, Scan h s ev src ps [] := by
  refine ⟨exists_scan,?_⟩
  rintro ⟨ps,hscan⟩ ps' mid type tail hscan' hspec
  obtain ⟨ps'',hrest⟩ := hscan.split hscan'
  cases hrest with
  | nil => exact absurd hspec.length_lt (Nat.not_lt_zero _)
  | cons hstep _ =>
    rcases hstep.cases_char with ⟨_,_,-,hnone,-,-⟩ | ⟨type',tail',attr,hat,hattr,-⟩
    · exact absurd hspec (not_specifier hnone type tail)
    · rw [substAt_eq_some.mpr hspec] at hat
      obtain ⟨rfl,rfl⟩ := Prod.mk.inj (Option.some.inj hat)
      exact ⟨attr,_,substAttr_eq_some.mp hattr⟩

/-- The text is a sequence of pieces, in one way, and expands to their texts one after the
other when these fit. -/
def ExpandsByPieces (h : Host σ) (s : σ) (ev : Event) (src : CString) : Prop :=
  ∃ ps, Scan h s ev src ps [] ∧ (∀ ps', Scan h s ev src ps' [] → ps' = ps) ∧
    ∀ size, (texts ps).length < size → (applyFormat h s ev src size).1 = texts ps

/-- The two spellings of each row expand alike with an attribute. -/
def SpellingsAgree (h : Host σ) (s : σ) (ev : Event) : Prop :=
  ∀ m ∈ substMap, ∀ (attr rest : CString) (size : ℕ),
    applyFormat h s ev (chr '$'::(m.1 ++ chr '{'::(attr ++ chr '}'::rest))) size =
      applyFormat h s ev (chr '%'::m.2.1::chr '{'::(attr ++ chr '}'::rest)) size

/-- A text with closed braces expands to the texts of its pieces. -/
theorem format_expands (h : Host σ) (s : σ) (ev : Event) {src : CString} (hclosed : BracesClosed h s ev src) :
    ExpandsByPieces h s ev src ∧ SpellingsAgree h s ev := by
  obtain ⟨ps,hscan⟩ := exists_scan hclosed
  refine ⟨⟨ps,hscan,fun ps' hscan' => hscan'.unique hscan,fun size hfit => ?_⟩,fun m hm attr rest size => ?_⟩
  · exact formatLoop_scan ([],size) false hscan le_rfl hfit
  · exact applyFormat_spellings hm (attr ++ chr '}'::rest) size

end Scan

def partEvent : Event := { dev := { sysname := str "sda1" } }

/-- A name with an attribute, and a doubled character. -/
def kernelText : CString := str "$kernel\x7bx\x7d-%%"

theorem format_expands_part :
    BracesClosed emptyHost () partEvent kernelText ∧
    ExpandsByPieces emptyHost () partEvent kernelText ∧ SpellingsAgree emptyHost () partEvent := by
  have hat : substAt kernelText = some (.kernel,str "\x7bx\x7d-%%") := by decide
  have hattr : substAttr (str "\x7bx\x7d-%%") = some (some (str "x"),str "-%%") := by decide
  have hminus : substAt (str "-%%") = none := by decide
  have hclosed : BracesClosed emptyHost () partEvent kernelText :=
    bracesClosed_iff.mpr ⟨_,.cons (.subst (substAt_eq_some.mp hat) (substAttr_eq_some.mp hattr))
      (.cons (step_char hminus) (.cons (.doubled [] (Or.inr rfl)) (.nil [])))⟩
  exact ⟨hclosed,format_expands emptyHost () partEvent hclosed⟩

end Rules
end Udev
