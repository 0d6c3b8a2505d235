import Udev.HwdbSearch

/-! What a lookup in the hardware database finds: the keys of all patterns that match. Bytes
that are not ASCII and brackets on the literal way through the index can break this. -/
namespace Udev
namespace Hwdb

open RadixTree CString Text

def Ordinary (c : UInt8) : Prop := isGlob c = false ∧ c ≠ chr '\\'

/-- What is documented of `fnmatch` without flags. -/
structure FnmatchSpec (fnmatch : CString → CString → Bool) : Prop where
  nil : ∀ s, fnmatch [] s = true ↔ s = []
  ordinary_nil : ∀ c p, Ordinary c → fnmatch (c::p) [] = false
  ordinary : ∀ c p x s, Ordinary c → (fnmatch (c::p) (x::s) = true ↔ c = x ∧ fnmatch p s = true)
  question : ∀ p x s, fnmatch (chr '?'::p) (x::s) = fnmatch p s
  star : ∀ p s, fnmatch (chr '*'::p) s = true ↔ ∃ t, t <:+ s ∧ fnmatch p t = true

section Fnmatch

variable {fnmatch : CString → CString → Bool} (h : FnmatchSpec fnmatch)

include h

theorem FnmatchSpec.literal {pre : CString} (hpre : ∀ c ∈ pre, Ordinary c) (p s : CString) :
    fnmatch (pre ++ p) (pre ++ s) = true ↔ fnmatch p s = true := by
  induction pre with
  | nil => rfl
  | cons c pre ih =>
    rw [List.cons_append,List.cons_append,h.ordinary c _ c _ (hpre c List.mem_cons_self),
      ih fun x hx => hpre x (List.mem_cons_of_mem _ hx)]
    exact ⟨fun hm => hm.2,fun hm => ⟨rfl,hm⟩⟩

theorem FnmatchSpec.differs {pre : CString} (hpre : ∀ c ∈ pre, Ordinary c) {c : UInt8} (hc : Ordinary c) (p : CString)
    {s : CString} (hs : s.head? ≠ some c) : ¬fnmatch (pre ++ c::p) (pre ++ s) = true := by
  rw [h.literal hpre]
  cases s with
  | nil => simp [h.ordinary_nil c p hc]
  | cons x s =>
    rw [h.ordinary c p x s hc]
    rintro ⟨rfl,-⟩
    exact hs rfl

theorem FnmatchSpec.self {c : UInt8} (hc : c = chr '*' ∨ c = chr '?') {p s : CString} (hm : fnmatch p s = true) :
    fnmatch (c::p) (c::s) = true := by
  rcases hc with rfl | rfl
  · exact (h.star p _).mpr ⟨s,List.suffix_cons _ _,hm⟩
  · rw [h.question]
    exact hm

end Fnmatch

section Buffer

theorem addValues_addValues (st : Search) (a b : List (CString × CString)) :
    (st.addValues a).addValues b = st.addValues (a ++ b) := by
  simp [Search.addValues,List.foldl_append]

@[simp] theorem addValues_nil (st : Search) : st.addValues [] = st := rfl

theorem linebufAdd_fits {st : Search} {s : CString} (h : st.buf.length+s.length < lineMax) :
    st.linebufAdd s = { st with buf := st.buf ++ s } := if_neg (by omega)

theorem linebufRem_add (st : Search) (s : CString) (adds : List (CString × CString)) :
    Search.linebufRem s.length (Search.addValues { st with buf := st.buf ++ s } adds) = some (st.addValues adds) := by
  have hlen : (st.buf ++ s).length-s.length = st.buf.length := by rw [List.length_append]; omega
  have hge : (st.buf ++ s).length ≥ s.length := by rw [List.length_append]; omega
  simp only [Search.linebufRem,Search.addValues,if_pos hge,hlen,List.take_left]

end Buffer

def dropPrefix (p : ℕ) : StringTree → StringTree
  | .node (pre,v) ch => .node (pre.drop p,v) ch

section Match

variable {fnmatch : CString → CString → Bool} {search : CString}

theorem foldlM_adds {f : Search → UInt8 × StringTree → Option Search} {ch : List (UInt8 × StringTree)} {buf : CString}
    {M : UInt8 × StringTree → CString × CString → Prop}
    (h : ∀ e ∈ ch, ∀ st : Search, st.buf = buf →
      ∃ adds, f st e = some (st.addValues adds) ∧ ∀ kv, kv ∈ adds ↔ M e kv) {st : Search} (hst : st.buf = buf) :
    ∃ adds, ch.foldlM f st = some (st.addValues adds) ∧ ∀ kv, kv ∈ adds ↔ ∃ e ∈ ch, M e kv := by
  induction ch generalizing st with
  | nil => exact ⟨[],rfl,by simp⟩
  | cons e ch ih =>
    obtain ⟨adds,hf,hadds⟩ := h e List.mem_cons_self st hst
    have hst' : (st.addValues adds).buf = buf := hst
    obtain ⟨adds',hf',hadds'⟩ := ih (fun x hx => h x (List.mem_cons_of_mem _ hx)) hst'
    refine ⟨adds ++ adds',?_,?_⟩
    · rw [List.foldlM_cons,hf]
      exact hf'.trans (by rw [addValues_addValues])
    · intro kv
      rw [List.mem_append,hadds,hadds',List.exists_mem_cons_iff]

theorem addMatching_spec (fnmatch : CString → CString → Bool) (search : CString) (values : List (CString × CString))
    {st : Search} (hst : st.buf.length+1 < lineMax) :
    ∃ adds, addMatching fnmatch search values st = some (st.addValues adds) ∧
      ∀ kv, kv ∈ adds ↔ kv ∈ values ∧ fnmatch st.buf search = true := by
  have hget : st.linebufGet = some st.buf := if_neg (by omega)
  rw [addMatching_eq]
  rw [hget]
  by_cases hnil : values = []
  · exact ⟨[],by rw [if_pos hnil]; rfl,by simp [hnil]⟩
  · by_cases hm : fnmatch st.buf search = true
    · exact ⟨values,by simp [hnil,hm],by simp [hm]⟩
    · exact ⟨[],by simp [hnil,hm,addValues_nil],by simp [hm]⟩

theorem mem_find_node {pre : CString} {v : List (CString × CString)} {ch : List (UInt8 × StringTree)}
    (hsorted : SortedMap.Sorted ch) {kv : CString × CString} {P : CString → Prop} :
    (∃ q, kv ∈ find [] (.node (pre,v) ch) q ∧ P q) ↔
      (∃ e ∈ ch, ∃ q, kv ∈ find [] e.2 q ∧ P (pre ++ e.1::q)) ∨ kv ∈ v ∧ P pre := by
  constructor
  · rintro ⟨q,hmem,hP⟩
    rcases prefix_cases pre q with rfl | ⟨c,rest,rfl⟩ | hother
    · rw [find_self] at hmem
      exact Or.inr ⟨hmem,hP⟩
    · rw [find_child] at hmem
      cases hget : SortedMap.get ch c with
      | none =>
        rw [hget] at hmem
        cases hmem
      | some child =>
        rw [hget] at hmem
        exact Or.inl ⟨(c,child),SortedMap.mem_of_get hget,rest,hmem,hP⟩
    · rw [find_other hother] at hmem
      cases hmem
  · rintro (⟨⟨c,child⟩,he,q,hmem,hP⟩ | ⟨hmem,hP⟩)
    · exact ⟨pre ++ c::q,by rw [find_of_mem hsorted he]; exact hmem,hP⟩
    · exact ⟨pre,by rw [find_self]; exact hmem,hP⟩

/-- `trie_fnmatch_f` at a node adds the values of all patterns below it that match. -/
def AddsMatches (fnmatch : CString → CString → Bool) (search : CString) (fuel : ℕ) (t : StringTree) : Prop :=
  ∀ (p n : ℕ) (st : Search), Within n (dropPrefix p t) → st.buf.length+n+1 < lineMax →
    ∃ adds, trieFnmatchF treeReader fnmatch search fuel t p st = some (st.addValues adds) ∧
      ∀ kv, kv ∈ adds ↔ ∃ q, kv ∈ find [] (dropPrefix p t) q ∧ fnmatch (st.buf ++ q) search = true

theorem dropPrefix_zero (t : StringTree) : dropPrefix 0 t = t := by
  obtain ⟨⟨pre,v⟩,ch⟩ := t
  rfl

theorem AddsMatches.child {fuel : ℕ} {t : StringTree} (h : AddsMatches fnmatch search fuel t) {n : ℕ}
    (hwithin : Within n t) (c : UInt8) {st : Search} (hroom : st.buf.length+1+n+1 < lineMax) :
    ∃ adds, (trieFnmatchF treeReader fnmatch search fuel t 0 (st.linebufAdd [c])).bind (Search.linebufRem 1) =
        some (st.addValues adds) ∧
      ∀ kv, kv ∈ adds ↔ ∃ q, kv ∈ find [] t q ∧ fnmatch (st.buf ++ c::q) search = true := by
  have hadd : st.linebufAdd [c] = { st with buf := st.buf ++ [c] } :=
    linebufAdd_fits (by rw [List.length_singleton]; omega)
  have hroom' : (st.buf ++ [c]).length+n+1 < lineMax := by
    rw [List.length_append,List.length_singleton]
    exact hroom
  obtain ⟨adds,hrun,hadds⟩ := h 0 n { st with buf := st.buf ++ [c] } (by rw [dropPrefix_zero]; exact hwithin) hroom'
  refine ⟨adds,?_,?_⟩
  · rw [hadd,hrun,Option.bind_some]
    exact linebufRem_add st [c] adds
  · intro kv
    rw [hadds,dropPrefix_zero]
    simp only [List.append_assoc,List.singleton_append]

variable (fnmatch search) in
theorem addsMatches {t : StringTree} (ht : Ordered t) : ∃ N, ∀ fuel, N ≤ fuel → AddsMatches fnmatch search fuel t := by
  induction ht with
  | @node data ch hsorted _ ih =>
    obtain ⟨pre,v⟩ := data
    obtain ⟨N,hN⟩ := exists_bound ih
    refine ⟨N+1,?_⟩
    intro fuel hfuel p n st hwithin hroom
    obtain ⟨fuel,rfl⟩ : ∃ m, fuel = m+1 := ⟨fuel-1,by omega⟩
    obtain ⟨tail,htail⟩ : ∃ tail, pre.drop p = tail := ⟨_,rfl⟩
    rw [dropPrefix,htail] at hwithin ⊢
    cases hwithin with
    | node hlen hlt hch =>
      have hadd : st.linebufAdd tail = { st with buf := st.buf ++ tail } := linebufAdd_fits (by omega)
      have hstep : ∀ e ∈ ch, ∀ st' : Search, st'.buf = st.buf ++ tail →
          ∃ adds, (trieFnmatchF treeReader fnmatch search fuel e.2 0 (st'.linebufAdd [e.1])).bind
              (Search.linebufRem 1) = some (st'.addValues adds) ∧
            ∀ kv, kv ∈ adds ↔ ∃ q, kv ∈ find [] e.2 q ∧ fnmatch (st.buf ++ tail ++ e.1::q) search = true := by
        intro e he st' hst'
        have hroom' : st'.buf.length+1+(n-(tail.length+1))+1 < lineMax := by
          have := hlt e he
          rw [hst',List.length_append]
          omega
        have hchild := (hN fuel (by omega) e he).child (hch e he) e.1 hroom'
        rwa [hst'] at hchild
      obtain ⟨adds,hloop,hadds⟩ := foldlM_adds hstep (rfl : ({ st with buf := st.buf ++ tail } : Search).buf = _)
      have hroom' : (Search.addValues { st with buf := st.buf ++ tail } adds).buf.length+1 < lineMax := by
        have hbuf : (Search.addValues { st with buf := st.buf ++ tail } adds).buf = st.buf ++ tail := rfl
        rw [hbuf,List.length_append]
        omega
      obtain ⟨adds',hown,hadds'⟩ := addMatching_spec fnmatch search v hroom'
      refine ⟨adds ++ adds',?_,?_⟩
      · have hpre : treeReader.pre (.node (pre,v) ch) = some pre := rfl
        have hchildren : treeReader.children (.node (pre,v) ch) = some ch := rfl
        have hvalues : treeReader.values (.node (pre,v) ch) = some v := rfl
        rw [trieFnmatchF_succ,hpre,hchildren,hvalues]
        simp only [Option.bind_some,htail,hadd,hloop,hown,addValues_addValues]
        exact linebufRem_add st tail (adds ++ adds')
      · intro kv
        rw [List.mem_append,hadds,hadds',mem_find_node hsorted]
        simp only [List.append_assoc]
        rfl

end Match

section Walk

def Literal (s : CString) : Prop := ∀ c ∈ s, isGlob c = false

theorem literal_cons {c : UInt8} {s : CString} (hc : isGlob c = false) (hs : Literal s) : Literal (c::s) := by
  intro x hx
  rcases List.mem_cons.mp hx with rfl | hx
  · exact hc
  · exact hs x hx

theorem walkPrefix_cases {pre : CString} (hnul : 0 ∉ pre) (search : CString) (k : ℕ) :
    (∃ lit c rest, pre = lit ++ c::rest ∧ Literal lit ∧ lit <+: search ∧ isGlob c = true ∧
      walkPrefix pre search k = .glob (k+lit.length)) ∨
    (∃ lit c rest, pre = lit ++ c::rest ∧ Literal lit ∧ lit <+: search ∧ isGlob c = false ∧
      sameChar c (charAt (search.drop lit.length) 0) = false ∧ walkPrefix pre search k = .differs) ∨
    Literal pre ∧ pre <+: search ∧ walkPrefix pre search k = .matched (k+pre.length) := by
  induction pre generalizing search k with
  | nil => exact Or.inr (Or.inr ⟨by simp [Literal],List.nil_prefix,rfl⟩)
  | cons c pre ih =>
    rw [List.mem_cons,not_or] at hnul
    by_cases hglob : isGlob c = true
    · exact Or.inl ⟨[],c,pre,rfl,by simp [Literal],List.nil_prefix,hglob,by rw [walkPrefix,if_pos hglob]; rfl⟩
    · have hplain : isGlob c = false := by simpa using hglob
      by_cases hsame : sameChar c (charAt search 0) = true
      · cases search with
        | nil => exact absurd (sameChar_eq _ _ hsame).symm hnul.1
        | cons x search =>
          obtain rfl : c = x := sameChar_eq _ _ hsame
          have hstep : walkPrefix (c::pre) (c::search) k = walkPrefix pre search (k+1) := by
            rw [walkPrefix,if_neg hglob,if_pos hsame]
            rfl
          rw [hstep]
          rcases ih hnul.2 search (k+1) with
            ⟨lit,d,rest,rfl,hlit,hle,hd,hwalk⟩ | ⟨lit,d,rest,rfl,hlit,hle,hd,hnot,hwalk⟩ | ⟨hlit,hle,hwalk⟩
          · refine Or.inl ⟨c::lit,d,rest,rfl,literal_cons hplain hlit,List.cons_prefix_cons.mpr ⟨rfl,hle⟩,hd,?_⟩
            rw [hwalk,List.length_cons,Nat.add_assoc,Nat.add_comm 1]
          · exact Or.inr (Or.inl ⟨c::lit,d,rest,rfl,literal_cons hplain hlit,
              List.cons_prefix_cons.mpr ⟨rfl,hle⟩,hd,hnot,hwalk⟩)
          · refine Or.inr (Or.inr ⟨literal_cons hplain hlit,List.cons_prefix_cons.mpr ⟨rfl,hle⟩,?_⟩)
            rw [hwalk,List.length_cons,Nat.add_assoc,Nat.add_comm 1]
      · refine Or.inr (Or.inl ⟨[],c,pre,rfl,by simp [Literal],List.nil_prefix,hplain,by simpa using hsame,?_⟩)
        rw [walkPrefix,if_neg hglob,if_neg hsame]

end Walk

/-- The nodes that the literal way of a string goes to, with the rest of the string there. -/
inductive Reaches : StringTree → CString → StringTree → CString → Prop
  | here (t : StringTree) (s : CString) : Reaches t s t s
  | step {pre : CString} {v : List (CString × CString)} {ch : List (UInt8 × StringTree)} {c : UInt8}
      {child u : StringTree} {s r : CString} (hpre : Literal pre) (hget : SortedMap.get ch c = some child)
      (h : Reaches child s u r) : Reaches (.node (pre,v) ch) (pre ++ c::s) u r

/-- On its literal way a string does not agree with a prefix on a byte that is not ASCII, and
does not go on through a bracket. -/
def Harmless (t : StringTree) (s : CString) : Prop :=
  ∀ u r, Reaches t s u r →
    (∀ lit c, Literal lit → isGlob c = false → lit ++ [c] <+: u.data.1 → lit ++ [c] <+: r → c < 0x80) ∧
    ∀ rest, Literal u.data.1 → r = u.data.1 ++ chr '['::rest → SortedMap.get u.children (chr '[') = none

section Search

variable {fnmatch : CString → CString → Bool}

theorem Harmless.step {pre : CString} {v : List (CString × CString)} {ch : List (UInt8 × StringTree)} {c : UInt8}
    {child : StringTree} {s : CString} (h : Harmless (.node (pre,v) ch) (pre ++ c::s)) (hpre : Literal pre)
    (hget : SortedMap.get ch c = some child) : Harmless child s :=
  fun u r hreach => h u r (.step hpre hget hreach)

/-- A byte of a pattern: neither `NUL` nor a backslash. -/
def PatternByte (c : UInt8) : Prop := c ≠ 0 ∧ c ≠ chr '\\'

theorem globChild_spec {search : CString} (pre : CString) (v : List (CString × CString))
    {ch : List (UInt8 × StringTree)} {fuel n : ℕ} (hadds : ∀ e ∈ ch, AddsMatches fnmatch search fuel e.2)
    (hch : ∀ e ∈ ch, Within n e.2) (hroom : n+2 < lineMax) (c : UInt8) (st : Search) (hst : st.buf = []) :
    ∃ adds, globChild treeReader fnmatch search fuel (.node (pre,v) ch) c st = some (st.addValues adds) ∧
      ∀ kv, kv ∈ adds ↔ ∃ t, SortedMap.get ch c = some t ∧ ∃ q, kv ∈ find [] t q ∧ fnmatch (c::q) search = true := by
  have hlookup : lookupChild treeReader (.node (pre,v) ch) c = some (SortedMap.get ch c) := rfl
  rw [globChild_eq]
  rw [hlookup]
  cases hget : SortedMap.get ch c with
  | none => exact ⟨[],rfl,by simp⟩
  | some t =>
    have hmem := SortedMap.mem_of_get hget
    obtain ⟨adds,hrun,hmatch⟩ := (hadds _ hmem).child (hch _ hmem) c (by rw [hst,List.length_nil]; omega)
    refine ⟨adds,hrun,?_⟩
    intro kv
    rw [hmatch kv,hst]
    simp

def ChildMatches (fnmatch : CString → CString → Bool) (search : CString) (ch : List (UInt8 × StringTree))
    (kv : CString × CString) (c : UInt8) : Prop :=
  ∃ t, SortedMap.get ch c = some t ∧ ∃ q, kv ∈ find [] t q ∧ fnmatch (c::q) search = true

theorem isGlob_cases {c : UInt8} (h : isGlob c = true) : c = chr '*' ∨ c = chr '?' ∨ c = chr '[' := by
  simpa [isGlob,or_assoc] using h

/-- What matches below a node whose prefix is there: its own pattern at the end of the string,
and the patterns of its children. -/
theorem matches_node (hf : FnmatchSpec fnmatch) {pre : CString} {v : List (CString × CString)}
    {ch : List (UInt8 × StringTree)} (hsorted : SortedMap.Sorted ch) (hpre : ∀ c ∈ pre, Ordinary c) (rest : CString)
    (kv : CString × CString) :
    (∃ q, kv ∈ find [] (.node (pre,v) ch) q ∧ fnmatch q (pre ++ rest) = true) ↔
      (∃ c, ChildMatches fnmatch rest ch kv c) ∨ kv ∈ v ∧ rest = [] := by
  rw [mem_find_node hsorted]
  have hown : fnmatch pre (pre ++ rest) = true ↔ rest = [] := by
    have hliteral := hf.literal hpre [] rest
    rw [List.append_nil] at hliteral
    rw [hliteral,hf.nil]
  rw [hown]
  refine or_congr ?_ Iff.rfl
  constructor
  · rintro ⟨⟨c,t⟩,he,q,hmem,hm⟩
    exact ⟨c,t,hsorted.get_of_mem he,q,hmem,(hf.literal hpre _ _).mp hm⟩
  · rintro ⟨c,t,hget,q,hmem,hm⟩
    exact ⟨(c,t),SortedMap.mem_of_get hget,q,hmem,(hf.literal hpre _ _).mpr hm⟩

/-- The children with a glob character and the child of the next character are enough. -/
theorem childMatches_iff (hf : FnmatchSpec fnmatch) {ch : List (UInt8 × StringTree)}
    (hbytes : ∀ e ∈ ch, PatternByte e.1) {x : UInt8} {rest : CString}
    (hbracket : x = chr '[' → SortedMap.get ch x = none) (kv : CString × CString) :
    (∃ c, ChildMatches fnmatch (x::rest) ch kv c) ↔
      ((ChildMatches fnmatch (x::rest) ch kv (chr '*') ∨ ChildMatches fnmatch (x::rest) ch kv (chr '?')) ∨
        ChildMatches fnmatch (x::rest) ch kv (chr '[')) ∨
      ∃ t, SortedMap.get ch x = some t ∧ ∃ q, kv ∈ find [] t q ∧ fnmatch q rest = true := by
  constructor
  · rintro ⟨c,t,hget,q,hmem,hm⟩
    by_cases hglob : isGlob c = true
    · rcases isGlob_cases hglob with rfl | rfl | rfl
      · exact Or.inl (Or.inl (Or.inl ⟨t,hget,q,hmem,hm⟩))
      · exact Or.inl (Or.inl (Or.inr ⟨t,hget,q,hmem,hm⟩))
      · exact Or.inl (Or.inr ⟨t,hget,q,hmem,hm⟩)
    · have hordinary : Ordinary c := ⟨by simpa using hglob,(hbytes _ (SortedMap.mem_of_get hget)).2⟩
      obtain ⟨rfl,hrest⟩ := (hf.ordinary c q x rest hordinary).mp hm
      exact Or.inr ⟨t,hget,q,hmem,hrest⟩
  · rintro (((h | h) | h) | ⟨t,hget,q,hmem,hm⟩)
    · exact ⟨_,h⟩
    · exact ⟨_,h⟩
    · exact ⟨_,h⟩
    · refine ⟨x,t,hget,q,hmem,?_⟩
      by_cases hglob : isGlob x = true
      · rcases isGlob_cases hglob with rfl | rfl | rfl
        · exact hf.self (Or.inl rfl) hm
        · exact hf.self (Or.inr rfl) hm
        · rw [hbracket rfl] at hget
          cases hget
      · have hordinary : Ordinary x := ⟨by simpa using hglob,(hbytes _ (SortedMap.mem_of_get hget)).2⟩
        exact (hf.ordinary x q x rest hordinary).mpr ⟨rfl,hm⟩

/-- At the end of the string only the children with a glob character can match. -/
theorem childMatches_nil (hf : FnmatchSpec fnmatch) {ch : List (UInt8 × StringTree)}
    (hbytes : ∀ e ∈ ch, PatternByte e.1) (kv : CString × CString) :
    (∃ c, ChildMatches fnmatch [] ch kv c) ↔
      (ChildMatches fnmatch [] ch kv (chr '*') ∨ ChildMatches fnmatch [] ch kv (chr '?')) ∨
        ChildMatches fnmatch [] ch kv (chr '[') := by
  constructor
  · rintro ⟨c,t,hget,q,hmem,hm⟩
    by_cases hglob : isGlob c = true
    · rcases isGlob_cases hglob with rfl | rfl | rfl
      · exact Or.inl (Or.inl ⟨t,hget,q,hmem,hm⟩)
      · exact Or.inl (Or.inr ⟨t,hget,q,hmem,hm⟩)
      · exact Or.inr ⟨t,hget,q,hmem,hm⟩
    · have hordinary : Ordinary c := ⟨by simpa using hglob,(hbytes _ (SortedMap.mem_of_get hget)).2⟩
      rw [hf.ordinary_nil c q hordinary] at hm
      cases hm
  · rintro ((h | h) | h) <;> exact ⟨_,h⟩

theorem globChildren_spec {search : CString} (pre : CString) (v : List (CString × CString))
    {ch : List (UInt8 × StringTree)} {fuel n : ℕ} (hadds : ∀ e ∈ ch, AddsMatches fnmatch search fuel e.2)
    (hch : ∀ e ∈ ch, Within n e.2) (hroom : n+2 < lineMax) {st : Search} (hst : st.buf = []) :
    ∃ adds, ((globChild treeReader fnmatch search fuel (.node (pre,v) ch) (chr '*') st).bind
          (globChild treeReader fnmatch search fuel (.node (pre,v) ch) (chr '?'))).bind
          (globChild treeReader fnmatch search fuel (.node (pre,v) ch) (chr '[')) = some (st.addValues adds) ∧
      ∀ kv, kv ∈ adds ↔
        (ChildMatches fnmatch search ch kv (chr '*') ∨ ChildMatches fnmatch search ch kv (chr '?')) ∨
          ChildMatches fnmatch search ch kv (chr '[') := by
  obtain ⟨a₁,hrun₁,hadds₁⟩ := globChild_spec pre v hadds hch hroom (chr '*') st hst
  obtain ⟨a₂,hrun₂,hadds₂⟩ := globChild_spec pre v hadds hch hroom (chr '?') (st.addValues a₁) hst
  obtain ⟨a₃,hrun₃,hadds₃⟩ :=
    globChild_spec pre v hadds hch hroom (chr '[') ((st.addValues a₁).addValues a₂) hst
  refine ⟨a₁ ++ a₂ ++ a₃,?_,?_⟩
  · rw [hrun₁,Option.bind_some,hrun₂,Option.bind_some,hrun₃,addValues_addValues,addValues_addValues,
      List.append_assoc]
  · intro kv
    rw [List.mem_append,List.mem_append,hadds₁,hadds₂,hadds₃]
    rfl

def Finds (fnmatch : CString → CString → Bool) (fuel : ℕ) (t : StringTree) (s : CString) : Prop :=
  ∀ st : Search, st.buf = [] → ∃ adds, trieSearchF treeReader fnmatch fuel t s st = some (st.addValues adds) ∧
    ∀ kv, kv ∈ adds ↔ ∃ q, kv ∈ find [] t q ∧ fnmatch q s = true

theorem within_dropPrefix {n : ℕ} {t : StringTree} (h : Within n t) (p : ℕ) : Within n (dropPrefix p t) := by
  cases h with
  | @node _ pre v ch hlen hlt hch =>
    have hle : (pre.drop p).length ≤ pre.length := by
      rw [List.length_drop]
      omega
    exact .node (hle.trans hlen) (fun e he => lt_of_le_of_lt hle (hlt e he)) fun e he => (hch e he).mono (by omega)

theorem ordinary_of_literal {lit rest : CString} (hbytes : ∀ c ∈ lit ++ rest, PatternByte c) (hlit : Literal lit) :
    ∀ c ∈ lit, Ordinary c :=
  fun c hc => ⟨hlit c hc,(hbytes c (List.mem_append_left _ hc)).2⟩

/-- A glob character in the prefix: the patterns below the node are matched from there on. -/
theorem finds_glob (hf : FnmatchSpec fnmatch) {lit rest s' : CString} {c : UInt8} {v : List (CString × CString)}
    {ch : List (UInt8 × StringTree)} {fuel n : ℕ}
    (hadds : AddsMatches fnmatch s' fuel (.node (lit ++ c::rest,v) ch))
    (hwithin : Within n (.node (lit ++ c::rest,v) ch)) (hroom : n+2 < lineMax)
    (hbytes : ∀ x ∈ lit ++ c::rest, PatternByte x) (hlit : Literal lit)
    (hwalk : walkPrefix (lit ++ c::rest) (lit ++ s') 0 = .glob (0+lit.length)) :
    Finds fnmatch (fuel+1) (.node (lit ++ c::rest,v) ch) (lit ++ s') := by
  intro st hst
  obtain ⟨adds,hrun,hmatch⟩ :=
    hadds lit.length n st (within_dropPrefix hwithin _) (by rw [hst,List.length_nil]; omega)
  refine ⟨adds,?_,?_⟩
  · have hnamed : treeReader.named (.node (lit ++ c::rest,v) ch) = some true := rfl
    have hpre : treeReader.pre (.node (lit ++ c::rest,v) ch) = some (lit ++ c::rest) := rfl
    rw [trieSearchF_succ,hnamed,hpre]
    simp only [Option.bind_some,if_true,hwalk,Nat.zero_add,List.drop_left]
    exact hrun
  · intro kv
    have hdrop : dropPrefix lit.length (.node (lit ++ c::rest,v) ch) = .node (c::rest,v) ch := by
      rw [dropPrefix,List.drop_left]
    rw [hmatch,hst,hdrop]
    constructor
    · rintro ⟨q,hmem,hm⟩
      exact ⟨lit ++ q,by rwa [find_append],(hf.literal (ordinary_of_literal hbytes hlit) q s').mpr hm⟩
    · rintro ⟨q,hmem,hm⟩
      obtain ⟨q,rfl⟩ := (List.prefix_append lit (c::rest)).trans (prefix_of_find (List.ne_nil_of_mem hmem))
      rw [find_append] at hmem
      exact ⟨q,hmem,(hf.literal (ordinary_of_literal hbytes hlit) q s').mp hm⟩

theorem finds_differs (hf : FnmatchSpec fnmatch) {lit rest s' : CString} {c : UInt8} {v : List (CString × CString)}
    {ch : List (UInt8 × StringTree)} (fuel : ℕ) (hbytes : ∀ x ∈ lit ++ c::rest, PatternByte x) (hlit : Literal lit)
    (hc : isGlob c = false) (hascii : s'.head? = some c → c < 0x80) (hnot : sameChar c (charAt s' 0) = false)
    (hwalk : walkPrefix (lit ++ c::rest) (lit ++ s') 0 = .differs) :
    Finds fnmatch (fuel+1) (.node (lit ++ c::rest,v) ch) (lit ++ s') := by
  intro st _
  refine ⟨[],?_,?_⟩
  · have hnamed : treeReader.named (.node (lit ++ c::rest,v) ch) = some true := rfl
    have hpre : treeReader.pre (.node (lit ++ c::rest,v) ch) = some (lit ++ c::rest) := rfl
    rw [trieSearchF_succ,hnamed,hpre]
    simp only [Option.bind_some,if_true,hwalk]
    rfl
  · have hhead : s'.head? ≠ some c := by
      intro hhead
      obtain ⟨s'',rfl⟩ : ∃ s'', s' = c::s'' := ⟨_,List.eq_cons_of_mem_head? (Option.mem_def.mpr hhead)⟩
      have hsame : sameChar c c = true := by simp [sameChar,hascii hhead]
      exact Bool.false_ne_true (hnot.symm.trans hsame)
    have hordinary : Ordinary c := ⟨hc,(hbytes c (by simp)).2⟩
    intro kv
    constructor
    · intro hmem
      cases hmem
    · rintro ⟨q,hmem,hm⟩
      obtain ⟨q,rfl⟩ := prefix_of_find (List.ne_nil_of_mem hmem)
      rw [List.append_assoc,List.cons_append] at hm
      exact absurd hm (hf.differs (ordinary_of_literal hbytes hlit) hordinary _ hhead)

theorem finds_matched (hf : FnmatchSpec fnmatch) {pre rest : CString} {v : List (CString × CString)}
    {ch : List (UInt8 × StringTree)} {fuel n : ℕ} (hsorted : SortedMap.Sorted ch)
    (hadds : ∀ e ∈ ch, AddsMatches fnmatch rest fuel e.2) (hch : ∀ e ∈ ch, Within n e.2) (hroom : n+2 < lineMax)
    (hbytes : ∀ x ∈ pre, PatternByte x) (hkeys : ∀ e ∈ ch, PatternByte e.1) (hpre : Literal pre)
    (hwalk : walkPrefix pre (pre ++ rest) 0 = .matched (0+pre.length))
    (hbracket : ∀ r, rest = chr '['::r → SortedMap.get ch (chr '[') = none)
    (hnext : ∀ x r child, rest = x::r → SortedMap.get ch x = some child → Finds fnmatch fuel child r) :
    Finds fnmatch (fuel+1) (.node (pre,v) ch) (pre ++ rest) := by
  intro st hst
  have hordinary : ∀ c ∈ pre, Ordinary c := fun c hc => ⟨hpre c hc,(hbytes c hc).2⟩
  have hnamed : treeReader.named (.node (pre,v) ch) = some true := rfl
  have hlead : treeReader.pre (.node (pre,v) ch) = some pre := rfl
  have hvalues : treeReader.values (.node (pre,v) ch) = some v := rfl
  have hlookup : ∀ c, lookupChild treeReader (.node (pre,v) ch) c = some (SortedMap.get ch c) := fun _ => rfl
  obtain ⟨a₁,hglob,ha₁⟩ := globChildren_spec pre v hadds hch hroom hst
  rw [trieSearchF_succ,hnamed,hlead]
  simp only [Option.bind_some,if_true,hwalk,Nat.zero_add,List.drop_left,hglob]
  cases rest with
  | nil =>
    refine ⟨a₁ ++ v,?_,?_⟩
    · rw [if_pos rfl,hvalues,Option.map_some,addValues_addValues]
    · intro kv
      rw [List.mem_append,ha₁,matches_node hf hsorted hordinary,childMatches_nil hf hkeys]
      simp
  | cons x r =>
    have hdrop : (pre ++ x::r).drop (pre.length+1) = r := by
      rw [← List.drop_drop,List.drop_left]
      rfl
    have hbracket' : x = chr '[' → SortedMap.get ch x = none := by
      rintro rfl
      exact hbracket r rfl
    rw [if_neg (List.cons_ne_nil x r),hlookup,hdrop]
    have hx : charAt (x::r) 0 = x := rfl
    rw [hx]
    cases hget : SortedMap.get ch x with
    | none =>
      refine ⟨a₁,rfl,?_⟩
      intro kv
      rw [ha₁,matches_node hf hsorted hordinary,childMatches_iff hf hkeys hbracket',hget]
      simp
    | some child =>
      obtain ⟨a₂,hrun,ha₂⟩ := hnext x r child rfl hget (st.addValues a₁) hst
      refine ⟨a₁ ++ a₂,?_,?_⟩
      · rw [Option.bind_some,← addValues_addValues]
        exact hrun
      · intro kv
        rw [List.mem_append,ha₁,ha₂,matches_node hf hsorted hordinary,childMatches_iff hf hkeys hbracket',hget]
        simp

/-- With enough fuel a search finds the values of all patterns that match. -/
theorem exists_finds (hf : FnmatchSpec fnmatch) {n : ℕ} (hroom : n+2 < lineMax) {t : StringTree} {s : CString}
    (hordered : Ordered t) (hletters : Letters PatternByte t) (hwithin : Within n t) (h : Harmless t s) :
    ∃ N, ∀ fuel, N ≤ fuel → Finds fnmatch fuel t s := by
  induction hlen : s.length using Nat.strong_induction_on generalizing t s n with
  | _ len ih =>
    obtain ⟨⟨pre,v⟩,ch⟩ := t
    have hnode := hordered
    cases hnode with
    | node hsorted hchildren =>
    cases hletters with
    | node hbytes hbelow =>
    obtain ⟨hbytes,hkeys⟩ := hbytes
    have hnul : 0 ∉ pre := fun hmem => (hbytes 0 hmem).1 rfl
    obtain ⟨hascii,hbracket⟩ := h _ _ (.here _ _)
    rcases walkPrefix_cases hnul s 0 with
      ⟨lit,c,rest,rfl,hlit,⟨s',rfl⟩,hc,hwalk⟩ | ⟨lit,c,rest,rfl,hlit,⟨s',rfl⟩,hc,hnot,hwalk⟩ | ⟨hlit,⟨s',rfl⟩,hwalk⟩
    · obtain ⟨N,hN⟩ := addsMatches fnmatch s' hordered
      refine ⟨N+1,?_⟩
      intro fuel hfuel
      obtain ⟨fuel,rfl⟩ : ∃ m, fuel = m+1 := ⟨fuel-1,by omega⟩
      exact finds_glob hf (hN fuel (by omega)) hwithin hroom hbytes hlit hwalk
    · refine ⟨1,?_⟩
      intro fuel hfuel
      obtain ⟨fuel,rfl⟩ : ∃ m, fuel = m+1 := ⟨fuel-1,by omega⟩
      rw [List.drop_left] at hnot
      refine finds_differs hf fuel hbytes hlit hc ?_ hnot hwalk
      intro hhead
      obtain ⟨s'',rfl⟩ : ∃ s'', s' = c::s'' := ⟨_,List.eq_cons_of_mem_head? (Option.mem_def.mpr hhead)⟩
      exact hascii lit c hlit hc ⟨rest,by simp⟩ ⟨s'',by simp⟩
    · cases hwithin with
      | node hlen' hlt hch =>
        obtain ⟨N₁,hN₁⟩ := exists_bound fun e he => addsMatches fnmatch s' (hchildren e he)
        obtain ⟨N₂,hN₂⟩ : ∃ N, ∀ fuel, N ≤ fuel → ∀ x r child, s' = x::r → SortedMap.get ch x = some child →
            Finds fnmatch fuel child r := by
          cases s' with
          | nil => exact ⟨0,by simp⟩
          | cons x r =>
            cases hget : SortedMap.get ch x with
            | none =>
              refine ⟨0,?_⟩
              rintro fuel - x' r' child ⟨⟩ hsome
              rw [hget] at hsome
              cases hsome
            | some child =>
              have hmem := SortedMap.mem_of_get hget
              obtain ⟨N,hN⟩ := ih r.length (by simp [← hlen]; omega) (by omega) (hchildren _ hmem) (hbelow _ hmem)
                (hch _ hmem) (h.step hlit hget) rfl
              refine ⟨N,?_⟩
              rintro fuel hfuel x' r' child' ⟨⟩ hsome
              rw [hget] at hsome
              cases hsome
              exact hN fuel hfuel
        refine ⟨max N₁ N₂+1,?_⟩
        intro fuel hfuel
        obtain ⟨fuel,rfl⟩ : ∃ m, fuel = m+1 := ⟨fuel-1,by omega⟩
        exact finds_matched hf hsorted (hN₁ fuel (by omega)) hch (by omega) hbytes hkeys hlit hwalk
          (fun r hr => hbracket r hlit (by rw [hr]; rfl)) (hN₂ fuel (by omega))

end Search

section Properties

theorem key_cases (key : CString) : charAt key 0 ≠ chr ' ' ∧ (∀ name, key ≠ chr ' '::name) ∨
    charAt key 0 = chr ' ' ∧ key = chr ' '::key.drop 1 := by
  cases key with
  | nil => exact Or.inl ⟨by decide,by simp⟩
  | cons c key =>
    by_cases hc : c = chr ' '
    · exact Or.inr ⟨hc,by rw [hc]; rfl⟩
    · refine Or.inl ⟨hc,?_⟩
      intro name hname
      exact hc (List.cons.inj hname).1

/-- The properties are the names of the keys, each with the value of such a key. -/
theorem foldl_hwdbAddProperty (adds : List (CString × CString)) :
    UdevList.Sorted (adds.foldl hwdbAddProperty []) ∧
      (∀ name, name ∈ (adds.foldl hwdbAddProperty []).map (·.name) ↔ ∃ v, (chr ' '::name,v) ∈ adds) ∧
      ∀ e ∈ adds.foldl hwdbAddProperty [], ∃ v, (chr ' '::e.name,v) ∈ adds ∧ e.value = some v := by
  induction adds using List.reverseRecOn with
  | nil => exact ⟨List.Pairwise.nil,by simp,by simp⟩
  | append_singleton adds kv ih =>
    obtain ⟨hsorted,hnames,hvalues⟩ := ih
    obtain ⟨key,value⟩ := kv
    simp only [List.foldl_append,List.foldl_cons,List.foldl_nil,List.mem_append,List.mem_singleton,Prod.mk.injEq]
    rcases key_cases key with ⟨hno,hkey⟩ | ⟨hyes,hkey⟩
    · have hskip : hwdbAddProperty (adds.foldl hwdbAddProperty []) (key,value) = adds.foldl hwdbAddProperty [] :=
        if_pos hno
      rw [hskip]
      refine ⟨hsorted,?_,?_⟩
      · intro name
        rw [hnames name]
        exact ⟨fun ⟨v,hv⟩ => ⟨v,Or.inl hv⟩,fun ⟨v,hv⟩ => ⟨v,hv.resolve_right fun h => hkey name h.1.symm⟩⟩
      · intro e he
        obtain ⟨v,hv,heq⟩ := hvalues e he
        exact ⟨v,Or.inl hv,heq⟩
    · have hadd : hwdbAddProperty (adds.foldl hwdbAddProperty []) (key,value) =
          (adds.foldl hwdbAddProperty []).add (key.drop 1) (some value) := if_neg (by simpa using hyes)
      rw [hadd]
      refine ⟨hsorted.add _ _,?_,?_⟩
      · intro name
        rw [UdevList.mem_add_name,hnames name]
        constructor
        · rintro (rfl | ⟨v,hv⟩)
          · exact ⟨value,Or.inr ⟨hkey.symm,rfl⟩⟩
          · exact ⟨v,Or.inl hv⟩
        · rintro ⟨v,hv | ⟨hname,-⟩⟩
          · exact Or.inr ⟨v,hv⟩
          · exact Or.inl (by rw [← hname]; rfl)
      · intro e he
        rcases hsorted.mem_add.mp he with rfl | ⟨he,-⟩
        · exact ⟨value,Or.inr ⟨hkey.symm,rfl⟩,rfl⟩
        · obtain ⟨v,hv,heq⟩ := hvalues e he
          exact ⟨v,Or.inl hv,heq⟩

end Properties

section Lookup

variable {l : List Insertion}

theorem lastValue_isSome (l : List Insertion) (pattern key : CString) :
    (lastValue l pattern key).isSome = true ↔ ∃ r ∈ l, r.1 = pattern ∧ r.2.1 = key := by
  induction l using List.reverseRecOn with
  | nil => simp [lastValue]
  | append_singleton l r ih =>
    rw [lastValue,List.foldl_append,List.foldl_cons,List.foldl_nil,← lastValue]
    by_cases hr : r.1 = pattern ∧ r.2.1 = key
    · rw [if_pos hr]
      exact ⟨fun _ => ⟨r,by simp,hr⟩,fun _ => rfl⟩
    · rw [if_neg hr,ih]
      simp only [List.mem_append,List.mem_singleton]
      constructor
      · rintro ⟨x,hx,hkey⟩
        exact ⟨x,Or.inl hx,hkey⟩
      · rintro ⟨x,hx | rfl,hkey⟩
        · exact ⟨x,hx,hkey⟩
        · exact absurd hkey hr

theorem mem_find_insertAll (hl : NulFree l) (pattern key value : CString) :
    (key,value) ∈ find [] (insertAll trieNew l).tree pattern ↔ lastValue l pattern key = some value := by
  rw [(insertAll_spec valid_trieNew hl).2,tree_trieNew]
  obtain ⟨hsorted,hget⟩ := find_insertStrings l pattern
  rw [← hget key]
  exact ⟨hsorted.get_of_mem,SortedMap.mem_of_get⟩

theorem letters_insertAll {P : UInt8 → Prop} (hl : NulFree l) (h : ∀ r ∈ l, ∀ c ∈ r.1, P c) :
    Letters P (insertAll trieNew l).tree := by
  rw [(insertAll_spec valid_trieNew hl).2,tree_trieNew]
  exact letters_insertStrings h

theorem within_insertAll {n : ℕ} (hl : NulFree l) (h : ∀ r ∈ l, r.1.length ≤ n) :
    Within n (insertAll trieNew l).tree := by
  rw [(insertAll_spec valid_trieNew hl).2,tree_trieNew]
  refine insertStrings_invariant (.node (Nat.zero_le n) (by simp) (by simp)) ?_
  intro r hr t t' hinserted
  exact hinserted.within (h r hr)

/-- With patterns that are ASCII and have no bracket every lookup string is harmless. -/
theorem harmless_of_letters {t : StringTree} (h : Letters (fun c => c < 0x80 ∧ c ≠ chr '[') t) (s : CString) :
    Harmless t s := by
  intro u r hreach
  have hu : Letters (fun c => c < 0x80 ∧ c ≠ chr '[') u := by
    induction hreach with
    | here t s => exact h
    | step hpre hget _ ih =>
      cases h with
      | node _ hbelow => exact ih (hbelow _ (SortedMap.mem_of_get hget))
  cases hu with
  | node hnode _ =>
    refine ⟨?_,?_⟩
    · intro lit c _ _ hle _
      exact (hnode.1 c (hle.subset (by simp))).1
    · intro rest _ _
      refine SortedMap.get_eq_none.mpr ?_
      intro e he
      exact (hnode.2 e he).2

/-- A lookup finds the keys of all patterns that match, each with the last value of such a pattern. -/
theorem hwdb_lookup {fnmatch : CString → CString → Bool} (hf : FnmatchSpec fnmatch) (hl : NulFree l)
    (hpattern : ∀ r ∈ l, chr '\\' ∉ r.1 ∧ r.1.length < 2000) (hkey : ∀ r ∈ l, charAt r.2.1 0 = chr ' ')
    {version : ℕ} (hsmall : (trieStore version (insertAll trieNew l)).length < 2^64) {m : CString}
    (hharmless : Harmless (insertAll trieNew l).tree m) :
    ∃ props : UdevList, (∃ N, ∀ fuel, N ≤ fuel →
        hwdbLookup fnmatch fuel (trieStore version (insertAll trieNew l)) m = some props) ∧
      (props.map (·.name)).Nodup ∧
      (∀ name, name ∈ props.map (·.name) ↔ ∃ r ∈ l, r.2.1.drop 1 = name ∧ fnmatch r.1 m = true) ∧
      ∀ e ∈ props, ∃ r ∈ l, r.2.1.drop 1 = e.name ∧ fnmatch r.1 m = true ∧ e.value = lastValue l r.1 r.2.1 := by
  have hroom : 1999+2 < lineMax := by decide
  have hletters : Letters PatternByte (insertAll trieNew l).tree := by
    refine letters_insertAll hl ?_
    intro r hr c hc
    exact ⟨ne_of_mem_of_not_mem hc (hl r hr).1,ne_of_mem_of_not_mem hc (hpattern r hr).1⟩
  have hwithin : Within 1999 (insertAll trieNew l).tree := by
    refine within_insertAll hl ?_
    intro r hr
    have := (hpattern r hr).2
    omega
  obtain ⟨N,hN⟩ := exists_finds hf hroom (ordered_insertAll hl) hletters hwithin hharmless
  obtain ⟨adds,hrun,hadds⟩ := hN N le_rfl {} rfl
  obtain ⟨hsorted,hnames,hvalues⟩ := foldl_hwdbAddProperty adds
  have hmem : ∀ name v, (chr ' '::name,v) ∈ adds ↔
      ∃ p, lastValue l p (chr ' '::name) = some v ∧ fnmatch p m = true := by
    intro name v
    rw [hadds]
    exact exists_congr fun p => and_congr_left' (mem_find_insertAll hl p _ v)
  refine ⟨adds.foldl hwdbAddProperty [],⟨N,?_⟩,hsorted.nodup_names,?_,?_⟩
  · intro fuel hfuel
    rw [hwdbLookup_trieStore hl hsmall,trieSearchF_mono hfuel hrun]
    rfl
  · intro name
    rw [hnames name]
    constructor
    · rintro ⟨v,hv⟩
      obtain ⟨p,hlast,hmatch⟩ := (hmem name v).mp hv
      obtain ⟨r,hr,rfl,hname⟩ := (lastValue_isSome l p _).mp (by rw [hlast]; rfl)
      exact ⟨r,hr,by rw [hname]; rfl,hmatch⟩
    · rintro ⟨r,hr,rfl,hmatch⟩
      obtain ⟨hno,-⟩ | ⟨-,hspace⟩ := key_cases r.2.1
      · exact absurd (hkey r hr) hno
      · obtain ⟨v,hv⟩ := Option.isSome_iff_exists.mp ((lastValue_isSome l r.1 r.2.1).mpr ⟨r,hr,rfl,rfl⟩)
        exact ⟨v,(hmem _ v).mpr ⟨r.1,by rw [← hspace]; exact hv,hmatch⟩⟩
  · intro e he
    obtain ⟨v,hv,hvalue⟩ := hvalues e he
    obtain ⟨p,hlast,hmatch⟩ := (hmem e.name v).mp hv
    obtain ⟨r,hr,rfl,hname⟩ := (lastValue_isSome l p _).mp (by rw [hlast]; rfl)
    exact ⟨r,hr,by rw [hname]; rfl,hmatch,by rw [hvalue,hname,hlast]⟩

end Lookup

/-- `fnmatch` without flags for patterns without bracket expressions. -/
def simpleFnmatch : CString → CString → Bool
  | [], s => s = []
  | c::p, s =>
    if c = chr '*' then s.tails.any (simpleFnmatch p)
    else
      match s with
      | [] => false
      | x::s => (c = chr '?' || c = x && c ≠ chr '[' && c ≠ chr '\\') && simpleFnmatch p s

theorem fnmatchSpec_simpleFnmatch : FnmatchSpec simpleFnmatch where
  nil s := by simp [simpleFnmatch]
  ordinary_nil c p h := by
    obtain ⟨hglob,-⟩ := h
    simp only [isGlob,Bool.or_eq_false_iff,decide_eq_false_iff_not] at hglob
    simp [simpleFnmatch,hglob.1.1]
  ordinary c p x s h := by
    obtain ⟨hglob,hback⟩ := h
    simp only [isGlob,Bool.or_eq_false_iff,decide_eq_false_iff_not] at hglob
    simp [simpleFnmatch,hglob.1.1,hglob.1.2,hglob.2,hback]
  question p x s := by
    have hne : chr '?' ≠ chr '*' := by decide
    simp [simpleFnmatch,hne]
  star p s := by
    have hstar : simpleFnmatch (chr '*'::p) s = s.tails.any (simpleFnmatch p) := by cases s <;> rfl
    rw [hstar,List.any_eq_true]
    simp only [List.mem_tails]

/-- A lookup of a USB device. -/
theorem hwdb_lookup_usb : ∃ props : UdevList,
    (∃ N, ∀ fuel, N ≤ fuel →
      hwdbLookup simpleFnmatch fuel (trieStore 220 (insertAll trieNew usbRecords)) (str "usb:v04F2p0402") = some props) ∧
    str "ID_MODEL" ∈ props.map (·.name) := by
  have hsmall : (trieStore 220 (insertAll trieNew usbRecords)).length < 2^64 := by decide +kernel
  have hl : NulFree usbRecords := by decide +kernel
  have hharmless : Harmless (insertAll trieNew usbRecords).tree (str "usb:v04F2p0402") :=
    harmless_of_letters (letters_insertAll hl (by decide +kernel)) _
  obtain ⟨props,hrun,-,hnames,-⟩ := hwdb_lookup fnmatchSpec_simpleFnmatch hl (by decide +kernel) (by decide +kernel)
    hsmall hharmless
  exact ⟨props,hrun,(hnames _).mpr ⟨(str "usb:v04F2*",str " ID_MODEL",str "Chicony"),by decide +kernel,by decide +kernel,
    by decide +kernel⟩⟩

/-- The pattern `é` in UTF-8, and a pattern that is a bracket expression. -/
def wordRecords : List Insertion := [([0xc3,0xa9],str " NAME",str "e"),(str "[a]",str " NAME",str "a")]

/-- The first pattern is not found as itself, and the second is found where it does not match. -/
theorem word_lookup : simpleFnmatch [0xc3,0xa9] [0xc3,0xa9] = true ∧ simpleFnmatch (str "[a]") (str "[a]") = false ∧
    hwdbLookup simpleFnmatch 20 (trieStore 220 (insertAll trieNew wordRecords)) [0xc3,0xa9] = some [] ∧
    hwdbLookup simpleFnmatch 20 (trieStore 220 (insertAll trieNew wordRecords)) (str "[a]") =
      some [⟨str "NAME",some (str "a"),0⟩] := by
  decide +kernel

end Hwdb
end Udev
