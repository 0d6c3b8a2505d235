import Udev.HwdbLookup
import Udev.Properties
import Udev.Ranked

/-! Which value a lookup in the hardware database gives when several patterns match. The search
goes from the globs to the literal way at each character, so a pattern that agrees longer with
the string wins; behind its first glob the search goes through the index in its order. -/
namespace Udev
namespace Hwdb

open RadixTree CString Text

/-- The place of a pattern among those that begin alike, behind a glob: the bytes decide, and a
pattern comes after all that go on. -/
def globPlace (q : CString) : List ℕ := q.map UInt8.toNat ++ [256]

/-- The order in which `trie_search_f` looks up the globs; everything else comes later. -/
def globRank (c : UInt8) : ℕ := if c = chr '*' then 0 else if c = chr '?' then 1 else if c = chr '[' then 2 else 3

/-- The place of a pattern among those that match a string. -/
def place : CString → List ℕ
  | [] => [3]
  | c::q => globRank c::if isGlob c then globPlace q else place q

section Place

theorem globPlace_append (pre q : CString) : globPlace (pre ++ q) = pre.map UInt8.toNat ++ globPlace q := by
  simp [globPlace]

theorem append_lt_append_iff (a b c : List ℕ) : a ++ b < a ++ c ↔ b < c := by
  induction a with
  | nil => rfl
  | cons x a ih =>
    rw [List.cons_append,List.cons_append,List.cons_lt_cons_iff,ih]
    simp

theorem append_le_append_iff (a b c : List ℕ) : a ++ b ≤ a ++ c ↔ b ≤ c := by
  rw [← not_lt,append_lt_append_iff,not_lt]

theorem globPlace_mono (pre : CString) {q q' : CString} (h : globPlace q ≤ globPlace q') :
    globPlace (pre ++ q) ≤ globPlace (pre ++ q') := by
  rw [globPlace_append,globPlace_append]
  exact (append_le_append_iff _ _ _).mpr h

theorem cons_le_of_lt {x y : ℕ} (h : x < y) (a b : List ℕ) : x::a ≤ y::b := le_of_lt (List.cons_lt_cons_iff.mpr (Or.inl h))

theorem globPlace_cons_le {c c' : UInt8} (h : c < c') (q q' : CString) : globPlace (c::q) ≤ globPlace (c'::q') :=
  cons_le_of_lt (UInt8.lt_iff_toNat_lt.mp h) _ _

theorem globPlace_le_nil (q : CString) : globPlace q ≤ globPlace [] := by
  cases q with
  | nil => exact le_rfl
  | cons c q => exact cons_le_of_lt (UInt8.toNat_lt_size c) _ _

theorem globRank_literal {c : UInt8} (h : isGlob c = false) : globRank c = 3 := by
  simp only [isGlob,Bool.or_eq_false_iff,decide_eq_false_iff_not] at h
  simp [globRank,h.1.1,h.1.2,h.2]

theorem globRank_lt {c : UInt8} (h : isGlob c = true) : globRank c < 3 := by
  rcases isGlob_cases h with rfl | rfl | rfl <;> decide

theorem place_literal {lit : CString} (h : Literal lit) (q : CString) :
    place (lit ++ q) = List.replicate lit.length 3 ++ place q := by
  induction lit with
  | nil => rfl
  | cons c lit ih =>
    have hc := h c List.mem_cons_self
    rw [List.cons_append,place,globRank_literal hc,hc,ih fun x hx => h x (List.mem_cons_of_mem _ hx)]
    rfl

theorem place_glob {c : UInt8} (h : isGlob c = true) (q : CString) : place (c::q) = globRank c::globPlace q := by
  rw [place,if_pos h]

theorem globPlace_injective {q q' : CString} (h : globPlace q = globPlace q') : q = q' :=
  List.map_injective_iff.mpr (fun _ _ => UInt8.toNat_inj.mp) (List.append_inj_left' h rfl)

end Place

section Below

variable {fnmatch : CString → CString → Bool} {search : CString}

theorem mem_find_iff {pre : CString} {v : List (CString × CString)} {ch : List (UInt8 × StringTree)}
    (hsorted : SortedMap.Sorted ch) (q : CString) (kv : CString × CString) :
    kv ∈ find [] (.node (pre,v) ch) q ↔
      (∃ e ∈ ch, ∃ q', q = pre ++ e.1::q' ∧ kv ∈ find [] e.2 q') ∨ q = pre ∧ kv ∈ v := by
  have h : (∃ x, kv ∈ find [] (.node (pre,v) ch) x ∧ q = x) ↔
      (∃ e ∈ ch, ∃ q', kv ∈ find [] e.2 q' ∧ q = pre ++ e.1::q') ∨ kv ∈ v ∧ q = pre := mem_find_node hsorted
  constructor
  · intro hmem
    rcases h.mp ⟨q,hmem,rfl⟩ with ⟨e,he,q',hq',heq⟩ | ⟨hv,heq⟩
    · exact Or.inl ⟨e,he,q',heq,hq'⟩
    · exact Or.inr ⟨heq,hv⟩
  · rintro (⟨e,he,q',heq,hq'⟩ | ⟨heq,hv⟩)
    · obtain ⟨x,hx,rfl⟩ := h.mpr (Or.inl ⟨e,he,q',hq',heq⟩)
      exact hx
    · obtain ⟨x,hx,rfl⟩ := h.mpr (Or.inr ⟨hv,heq⟩)
      exact hx

/-- The loop over the children adds what each child adds, in the order of their places. -/
theorem foldlM_ranked {f : Search → UInt8 × StringTree → Option Search} {ch : List (UInt8 × StringTree)}
    {buf : CString} {M : UInt8 × StringTree → CString → CString × CString → Prop} {rank : CString → List ℕ}
    (h : ∀ e ∈ ch, ∀ st : Search, st.buf = buf →
      ∃ adds, f st e = some (st.addValues adds) ∧ Ranked adds (M e) rank)
    (hrank : ch.Pairwise fun e e' => ∀ q q' kv kv', M e q kv → M e' q' kv' → rank q ≤ rank q') {st : Search}
    (hst : st.buf = buf) :
    ∃ adds, ch.foldlM f st = some (st.addValues adds) ∧ Ranked adds (fun q kv => ∃ e ∈ ch, M e q kv) rank := by
  induction ch generalizing st with
  | nil => exact ⟨[],rfl,.nil (by simp)⟩
  | cons e ch ih =>
    obtain ⟨hfirst,hlater⟩ := List.pairwise_cons.mp hrank
    obtain ⟨adds,hf,hadds⟩ := h e List.mem_cons_self st hst
    have hst' : (st.addValues adds).buf = buf := hst
    obtain ⟨adds',hf',hadds'⟩ := ih (fun x hx => h x (List.mem_cons_of_mem _ hx)) hlater hst'
    refine ⟨adds ++ adds',?_,?_⟩
    · rw [List.foldlM_cons,hf]
      exact hf'.trans (by rw [addValues_addValues])
    · refine hadds.append hadds' (fun q kv => List.exists_mem_cons_iff _ _ _) ?_
      rintro q q' kv kv' hq ⟨e',he',hq'⟩
      exact hfirst e' he' q q' kv kv' hq hq'

/-- `trie_fnmatch_f` at a node adds the values of the patterns below it that match, in the order
of their places. -/
def AddsRanked (fnmatch : CString → CString → Bool) (search : CString) (fuel : ℕ) (t : StringTree) : Prop :=
  ∀ (p n : ℕ) (st : Search), Within n (dropPrefix p t) → st.buf.length+n+1 < lineMax →
    ∃ adds, trieFnmatchF treeReader fnmatch search fuel t p st = some (st.addValues adds) ∧
      Ranked adds (fun q kv => kv ∈ find [] (dropPrefix p t) q ∧ fnmatch (st.buf ++ q) search = true) globPlace

theorem AddsRanked.child {fuel : ℕ} {t : StringTree} (h : AddsRanked fnmatch search fuel t) {n : ℕ}
    (hwithin : Within n t) (c : UInt8) {st : Search} (hroom : st.buf.length+1+n+1 < lineMax) :
    ∃ adds, (trieFnmatchF treeReader fnmatch search fuel t 0 (st.linebufAdd [c])).bind (Search.linebufRem 1) =
        some (st.addValues adds) ∧
      Ranked adds (fun q kv => kv ∈ find [] t q ∧ fnmatch (st.buf ++ c::q) search = true) globPlace := by
  have hadd : st.linebufAdd [c] = { st with buf := st.buf ++ [c] } :=
    linebufAdd_fits (by rw [List.length_singleton]; omega)
  have hroom' : (st.buf ++ [c]).length+n+1 < lineMax := by
    rw [List.length_append,List.length_singleton]
    exact hroom
  obtain ⟨adds,hrun,hadds⟩ := h 0 n { st with buf := st.buf ++ [c] } (by rw [dropPrefix_zero]; exact hwithin) hroom'
  refine ⟨adds,?_,hadds.congr ?_⟩
  · rw [hadd,hrun,Option.bind_some]
    exact linebufRem_add st [c] adds
  · intro q kv
    rw [dropPrefix_zero,List.append_assoc,List.singleton_append]

variable (fnmatch search) in
theorem addMatching_ranked (pre : CString) (values : List (CString × CString)) {st : Search}
    (hst : st.buf.length+1 < lineMax) :
    ∃ adds, addMatching fnmatch search values st = some (st.addValues adds) ∧
      Ranked adds (fun q kv => q = pre ∧ kv ∈ values ∧ fnmatch st.buf search = true) globPlace := by
  obtain ⟨adds,hrun,hadds⟩ := addMatching_spec fnmatch search values hst
  refine ⟨adds,hrun,.of_mem (by simp [hadds]) ?_⟩
  rintro q q' kv kv' ⟨rfl,-⟩ ⟨rfl,-⟩
  exact le_rfl

variable (fnmatch search) in
theorem addsRanked {t : StringTree} (ht : Ordered t) : ∃ N, ∀ fuel, N ≤ fuel → AddsRanked fnmatch search fuel t := by
  induction ht with
  | @node data ch hsorted _ ih =>
    obtain ⟨pre,v⟩ := data
    obtain ⟨N,hN⟩ := exists_bound ih
    refine ⟨N+1,?_⟩
    intro fuel hfuel p n st hwithin hroom
    obtain ⟨fuel,rfl⟩ : ∃ m, fuel = m+1 := ⟨fuel-1,by omega⟩
    obtain ⟨tail,htail⟩ : ∃ tail, pre.drop p = tail := ⟨_,rfl⟩
    rw [dropPrefix,htail] at hwithin ⊢
    cases hwithin with
    | node hlen hlt hch =>
      have hadd : st.linebufAdd tail = { st with buf := st.buf ++ tail } := linebufAdd_fits (by omega)
      have hstep : ∀ e ∈ ch, ∀ st' : Search, st'.buf = st.buf ++ tail →
          ∃ adds, (trieFnmatchF treeReader fnmatch search fuel e.2 0 (st'.linebufAdd [e.1])).bind
              (Search.linebufRem 1) = some (st'.addValues adds) ∧
            Ranked adds (fun q kv => ∃ q', q = tail ++ e.1::q' ∧ kv ∈ find [] e.2 q' ∧
              fnmatch (st.buf ++ q) search = true) globPlace := by
        intro e he st' hst'
        have hroom' : st'.buf.length+1+(n-(tail.length+1))+1 < lineMax := by
          have := hlt e he
          rw [hst',List.length_append]
          omega
        obtain ⟨adds,hrun,hadds⟩ := (hN fuel (by omega) e he).child (hch e he) e.1 hroom'
        refine ⟨adds,hrun,hadds.map (fun q' => tail ++ e.1::q') ?_ ?_⟩
        · intro q kv
          refine exists_congr fun q' => and_congr_right ?_
          rintro rfl
          rw [hst',List.append_assoc]
        · intro q q' _ _ _ _ hle
          exact globPlace_mono tail (globPlace_mono [e.1] hle)
      have horder : ch.Pairwise fun e e' => ∀ q q' kv kv',
          (∃ x, q = tail ++ e.1::x ∧ kv ∈ find [] e.2 x ∧ fnmatch (st.buf ++ q) search = true) →
          (∃ x, q' = tail ++ e'.1::x ∧ kv' ∈ find [] e'.2 x ∧ fnmatch (st.buf ++ q') search = true) →
          globPlace q ≤ globPlace q' := by
        refine hsorted.imp ?_
        rintro e e' hlt q q' kv kv' ⟨x,rfl,-⟩ ⟨x',rfl,-⟩
        exact globPlace_mono tail (globPlace_cons_le hlt x x')
      obtain ⟨adds,hloop,hadds⟩ := foldlM_ranked hstep horder (rfl : ({ st with buf := st.buf ++ tail } : Search).buf = _)
      have hroom' : (Search.addValues { st with buf := st.buf ++ tail } adds).buf.length+1 < lineMax := by
        have hbuf : (Search.addValues { st with buf := st.buf ++ tail } adds).buf = st.buf ++ tail := rfl
        rw [hbuf,List.length_append]
        omega
      obtain ⟨adds',hown,hadds'⟩ := addMatching_ranked fnmatch search tail v hroom'
      refine ⟨adds ++ adds',?_,hadds.append hadds' ?_ ?_⟩
      · have hpre : treeReader.pre (.node (pre,v) ch) = some pre := rfl
        have hchildren : treeReader.children (.node (pre,v) ch) = some ch := rfl
        have hvalues : treeReader.values (.node (pre,v) ch) = some v := rfl
        rw [trieFnmatchF_succ,hpre,hchildren,hvalues]
        simp only [Option.bind_some,htail,hadd,hloop,hown,addValues_addValues]
        exact linebufRem_add st tail (adds ++ adds')
      · intro q kv
        rw [mem_find_iff hsorted]
        constructor
        · rintro ⟨⟨e,he,q',heq,hq'⟩ | ⟨rfl,hv⟩,hm⟩
          · exact Or.inl ⟨e,he,q',heq,hq',hm⟩
          · exact Or.inr ⟨rfl,hv,hm⟩
        · rintro (⟨e,he,q',heq,hq',hm⟩ | ⟨rfl,hv,hm⟩)
          · exact ⟨Or.inl ⟨e,he,q',heq,hq'⟩,hm⟩
          · exact ⟨Or.inr ⟨rfl,hv⟩,hm⟩
      · rintro q q' kv kv' ⟨e,-,x,rfl,-⟩ ⟨rfl,-⟩
        have hle := globPlace_mono q' (globPlace_le_nil (e.1::x))
        rwa [List.append_nil] at hle

end Below

section Way

variable {fnmatch : CString → CString → Bool} {pre rest : CString} {v : List (CString × CString)}
  {ch : List (UInt8 × StringTree)} {fuel n : ℕ}

theorem place_le {c c' : UInt8} (hpre : Literal pre) (h : globRank c < globRank c') (q q' : CString) :
    place (pre ++ c::q) ≤ place (pre ++ c'::q') := by
  rw [place_literal hpre,place_literal hpre]
  exact (append_le_append_iff _ _ _).mpr (cons_le_of_lt h _ _)

def Below (fnmatch : CString → CString → Bool) (pre rest : CString) (ch : List (UInt8 × StringTree)) (c : UInt8)
    (q : CString) (kv : CString × CString) : Prop :=
  ∃ t, SortedMap.get ch c = some t ∧ ∃ q', q = pre ++ c::q' ∧ kv ∈ find [] t q' ∧ fnmatch (c::q') rest = true

theorem below_le {c c' : UInt8} (hpre : Literal pre) (h : globRank c < globRank c') {q q' : CString}
    {kv kv' : CString × CString} (hq : Below fnmatch pre rest ch c q kv) (hq' : Below fnmatch pre rest ch c' q' kv') :
    place q ≤ place q' := by
  obtain ⟨-,-,x,rfl,-⟩ := hq
  obtain ⟨-,-,x',rfl,-⟩ := hq'
  exact place_le hpre h x x'

theorem mem_node_iff (hf : FnmatchSpec fnmatch) (hsorted : SortedMap.Sorted ch) (hpre : ∀ c ∈ pre, Ordinary c)
    (q : CString) (kv : CString × CString) :
    kv ∈ find [] (.node (pre,v) ch) q ∧ fnmatch q (pre ++ rest) = true ↔
      (∃ c, Below fnmatch pre rest ch c q kv) ∨ q = pre ∧ kv ∈ v ∧ rest = [] := by
  have hown : fnmatch pre (pre ++ rest) = true ↔ rest = [] := by
    have hliteral := hf.literal hpre [] rest
    rw [List.append_nil] at hliteral
    rw [hliteral,hf.nil]
  rw [mem_find_iff hsorted]
  constructor
  · rintro ⟨⟨⟨c,t⟩,he,q',rfl,hq'⟩ | ⟨rfl,hv⟩,hm⟩
    · exact Or.inl ⟨c,t,hsorted.get_of_mem he,q',rfl,hq',(hf.literal hpre _ _).mp hm⟩
    · exact Or.inr ⟨rfl,hv,hown.mp hm⟩
  · rintro (⟨c,t,hget,q',rfl,hq',hm⟩ | ⟨rfl,hv,hrest⟩)
    · exact ⟨Or.inl ⟨(c,t),SortedMap.mem_of_get hget,q',rfl,hq'⟩,(hf.literal hpre _ _).mpr hm⟩
    · exact ⟨Or.inr ⟨rfl,hv⟩,hown.mpr hrest⟩

def Next (fnmatch : CString → CString → Bool) (pre rest : CString) (ch : List (UInt8 × StringTree)) (q : CString)
    (kv : CString × CString) : Prop :=
  ∃ x r, rest = x::r ∧ ∃ t, SortedMap.get ch x = some t ∧ ∃ q', q = pre ++ x::q' ∧ kv ∈ find [] t q' ∧
    fnmatch q' r = true

/-- The children with a glob character and that of the next character are enough. -/
theorem below_iff (hf : FnmatchSpec fnmatch) (hbytes : ∀ e ∈ ch, PatternByte e.1) (hrest : Literal rest) (q : CString)
    (kv : CString × CString) :
    (∃ c, Below fnmatch pre rest ch c q kv) ↔
      ((Below fnmatch pre rest ch (chr '*') q kv ∨ Below fnmatch pre rest ch (chr '?') q kv) ∨
        Below fnmatch pre rest ch (chr '[') q kv) ∨ Next fnmatch pre rest ch q kv := by
  constructor
  · rintro ⟨c,hc⟩
    by_cases hglob : isGlob c = true
    · rcases isGlob_cases hglob with rfl | rfl | rfl
      · exact Or.inl (Or.inl (Or.inl hc))
      · exact Or.inl (Or.inl (Or.inr hc))
      · exact Or.inl (Or.inr hc)
    · obtain ⟨t,hget,q',rfl,hq',hm⟩ := hc
      have hordinary : Ordinary c := ⟨by simpa using hglob,(hbytes _ (SortedMap.mem_of_get hget)).2⟩
      cases rest with
      | nil => exact absurd (hf.ordinary_nil c q' hordinary) (by simp [hm])
      | cons x r =>
        obtain ⟨rfl,hr⟩ := (hf.ordinary c q' x r hordinary).mp hm
        exact Or.inr ⟨c,r,rfl,t,hget,q',rfl,hq',hr⟩
  · rintro (((h | h) | h) | ⟨x,r,rfl,t,hget,q',rfl,hq',hr⟩)
    · exact ⟨_,h⟩
    · exact ⟨_,h⟩
    · exact ⟨_,h⟩
    · have hordinary : Ordinary x :=
        ⟨hrest x List.mem_cons_self,(hbytes _ (SortedMap.mem_of_get hget)).2⟩
      exact ⟨x,t,hget,q',rfl,hq',(hf.ordinary x q' x r hordinary).mpr ⟨rfl,hr⟩⟩

theorem globChild_ranked (v : List (CString × CString)) (hadds : ∀ e ∈ ch, AddsRanked fnmatch rest fuel e.2)
    (hch : ∀ e ∈ ch, Within n e.2) (hroom : n+2 < lineMax) (hpre : Literal pre) {c : UInt8} (hc : isGlob c = true)
    (st : Search) (hst : st.buf = []) :
    ∃ adds, globChild treeReader fnmatch rest fuel (.node (pre,v) ch) c st = some (st.addValues adds) ∧
      Ranked adds (Below fnmatch pre rest ch c) place := by
  have hlookup : lookupChild treeReader (.node (pre,v) ch) c = some (SortedMap.get ch c) := rfl
  rw [globChild_eq]
  rw [hlookup]
  cases hget : SortedMap.get ch c with
  | none => exact ⟨[],rfl,.nil (by simp [Below,hget])⟩
  | some t =>
    have hmem := SortedMap.mem_of_get hget
    obtain ⟨adds,hrun,hranked⟩ := (hadds _ hmem).child (hch _ hmem) c (by rw [hst,List.length_nil]; omega)
    refine ⟨adds,hrun,hranked.map (fun q => pre ++ c::q) ?_ ?_⟩
    · intro q kv
      rw [Below,hget,hst]
      simp
    · intro q q' _ _ _ _ hle
      rw [place_literal hpre,place_literal hpre,append_le_append_iff,place_glob hc,place_glob hc]
      exact (append_le_append_iff [globRank c] _ _).mpr hle

theorem globChildren_ranked (v : List (CString × CString)) (hadds : ∀ e ∈ ch, AddsRanked fnmatch rest fuel e.2)
    (hch : ∀ e ∈ ch, Within n e.2) (hroom : n+2 < lineMax) (hpre : Literal pre) {st : Search} (hst : st.buf = []) :
    ∃ adds, ((globChild treeReader fnmatch rest fuel (.node (pre,v) ch) (chr '*') st).bind
          (globChild treeReader fnmatch rest fuel (.node (pre,v) ch) (chr '?'))).bind
          (globChild treeReader fnmatch rest fuel (.node (pre,v) ch) (chr '[')) = some (st.addValues adds) ∧
      Ranked adds (fun q kv => (Below fnmatch pre rest ch (chr '*') q kv ∨ Below fnmatch pre rest ch (chr '?') q kv) ∨
        Below fnmatch pre rest ch (chr '[') q kv) place := by
  obtain ⟨a₁,hrun₁,hr₁⟩ := globChild_ranked v hadds hch hroom hpre (c := chr '*') (by decide) st hst
  obtain ⟨a₂,hrun₂,hr₂⟩ := globChild_ranked v hadds hch hroom hpre (c := chr '?') (by decide) (st.addValues a₁) hst
  obtain ⟨a₃,hrun₃,hr₃⟩ :=
    globChild_ranked v hadds hch hroom hpre (c := chr '[') (by decide) ((st.addValues a₁).addValues a₂) hst
  refine ⟨a₁ ++ a₂ ++ a₃,?_,(hr₁.append hr₂ (fun _ _ => Iff.rfl) ?_).append hr₃ (fun _ _ => Iff.rfl) ?_⟩
  · rw [hrun₁,Option.bind_some,hrun₂,Option.bind_some,hrun₃,addValues_addValues,addValues_addValues,
      List.append_assoc]
  · intro q q' kv kv' hq hq'
    exact below_le hpre (by decide) hq hq'
  · rintro q q' kv kv' (hq | hq) hq'
    · exact below_le hpre (by decide) hq hq'
    · exact below_le hpre (by decide) hq hq'

/-- A search from a node on finds what matches, in the order of the places. -/
def SearchRanked (fnmatch : CString → CString → Bool) (fuel : ℕ) (t : StringTree) (s : CString) : Prop :=
  ∀ st : Search, st.buf = [] → ∃ adds, trieSearchF treeReader fnmatch fuel t s st = some (st.addValues adds) ∧
    Ranked adds (fun q kv => kv ∈ find [] t q ∧ fnmatch q s = true) place

/-- A glob character in the prefix: the patterns below the node are matched from there on. -/
theorem searchRanked_glob (hf : FnmatchSpec fnmatch) {lit s' : CString} {c : UInt8}
    (hadds : AddsRanked fnmatch s' fuel (.node (lit ++ c::rest,v) ch))
    (hwithin : Within n (.node (lit ++ c::rest,v) ch)) (hroom : n+2 < lineMax)
    (hbytes : ∀ x ∈ lit ++ c::rest, PatternByte x) (hlit : Literal lit) (hc : isGlob c = true)
    (hwalk : walkPrefix (lit ++ c::rest) (lit ++ s') 0 = .glob (0+lit.length)) :
    SearchRanked fnmatch (fuel+1) (.node (lit ++ c::rest,v) ch) (lit ++ s') := by
  intro st hst
  obtain ⟨adds,hrun,hranked⟩ :=
    hadds lit.length n st (within_dropPrefix hwithin _) (by rw [hst,List.length_nil]; omega)
  have hdrop : dropPrefix lit.length (.node (lit ++ c::rest,v) ch) = .node (c::rest,v) ch := by
    rw [dropPrefix,List.drop_left]
  have hstart : ∀ {q kv}, kv ∈ find [] (.node (c::rest,v) ch) q → ∃ q', q = c::q' := by
    intro q kv hq
    obtain ⟨q',rfl⟩ := prefix_of_find (List.ne_nil_of_mem hq)
    exact ⟨rest ++ q',rfl⟩
  refine ⟨adds,?_,hranked.map (fun q => lit ++ q) ?_ ?_⟩
  · have hnamed : treeReader.named (.node (lit ++ c::rest,v) ch) = some true := rfl
    have hpre : treeReader.pre (.node (lit ++ c::rest,v) ch) = some (lit ++ c::rest) := rfl
    rw [trieSearchF_succ,hnamed,hpre]
    simp only [Option.bind_some,if_true,hwalk,Nat.zero_add,List.drop_left]
    exact hrun
  · intro q kv
    rw [hst,hdrop]
    constructor
    · rintro ⟨hmem,hm⟩
      obtain ⟨q,rfl⟩ := (List.prefix_append lit (c::rest)).trans (prefix_of_find (List.ne_nil_of_mem hmem))
      rw [find_append] at hmem
      exact ⟨q,rfl,hmem,(hf.literal (ordinary_of_literal hbytes hlit) q s').mp hm⟩
    · rintro ⟨q,rfl,hmem,hm⟩
      exact ⟨by rwa [find_append],(hf.literal (ordinary_of_literal hbytes hlit) q s').mpr hm⟩
  · rintro q q' kv kv' ⟨hq,-⟩ ⟨hq',-⟩ hle
    rw [hdrop] at hq hq'
    obtain ⟨q,rfl⟩ := hstart hq
    obtain ⟨q',rfl⟩ := hstart hq'
    rw [place_literal hlit,place_literal hlit,append_le_append_iff,place_glob hc,place_glob hc]
    exact (append_le_append_iff [globRank c] _ _).mpr ((append_le_append_iff [c.toNat] _ _).mp hle)

theorem searchRanked_matched (hf : FnmatchSpec fnmatch) (hsorted : SortedMap.Sorted ch)
    (hadds : ∀ e ∈ ch, AddsRanked fnmatch rest fuel e.2) (hch : ∀ e ∈ ch, Within n e.2) (hroom : n+2 < lineMax)
    (hbytes : ∀ x ∈ pre, PatternByte x) (hkeys : ∀ e ∈ ch, PatternByte e.1) (hpre : Literal pre) (hrest : Literal rest)
    (hwalk : walkPrefix pre (pre ++ rest) 0 = .matched (0+pre.length))
    (hnext : ∀ x r child, rest = x::r → SortedMap.get ch x = some child → SearchRanked fnmatch fuel child r) :
    SearchRanked fnmatch (fuel+1) (.node (pre,v) ch) (pre ++ rest) := by
  intro st hst
  have hordinary : ∀ c ∈ pre, Ordinary c := fun c hc => ⟨hpre c hc,(hbytes c hc).2⟩
  have hnamed : treeReader.named (.node (pre,v) ch) = some true := rfl
  have hlead : treeReader.pre (.node (pre,v) ch) = some pre := rfl
  have hvalues : treeReader.values (.node (pre,v) ch) = some v := rfl
  have hlookup : ∀ c, lookupChild treeReader (.node (pre,v) ch) c = some (SortedMap.get ch c) := fun _ => rfl
  obtain ⟨a₁,hglob,hr₁⟩ := globChildren_ranked v hadds hch hroom hpre hst
  rw [trieSearchF_succ,hnamed,hlead]
  simp only [Option.bind_some,if_true,hwalk,Nat.zero_add,List.drop_left,hglob]
  have hlow : ∀ {q kv}, (Below fnmatch pre rest ch (chr '*') q kv ∨ Below fnmatch pre rest ch (chr '?') q kv) ∨
      Below fnmatch pre rest ch (chr '[') q kv → ∃ c x, globRank c < 3 ∧ q = pre ++ c::x := by
    rintro q kv ((⟨-,-,x,rfl,-⟩ | ⟨-,-,x,rfl,-⟩) | ⟨-,-,x,rfl,-⟩)
    · exact ⟨_,x,by decide,rfl⟩
    · exact ⟨_,x,by decide,rfl⟩
    · exact ⟨_,x,by decide,rfl⟩
  cases rest with
  | nil =>
    have hown : Ranked v (fun q kv => q = pre ∧ kv ∈ v) place := by
      refine .of_mem (by simp) ?_
      rintro q q' kv kv' ⟨rfl,-⟩ ⟨rfl,-⟩
      exact le_rfl
    refine ⟨a₁ ++ v,?_,hr₁.append hown ?_ ?_⟩
    · rw [if_pos rfl,hvalues,Option.map_some,addValues_addValues]
    · intro q kv
      rw [mem_node_iff hf hsorted hordinary,below_iff hf hkeys hrest]
      simp [Next]
    · rintro q q' kv kv' hq ⟨rfl,-⟩
      obtain ⟨c,x,hc,rfl⟩ := hlow hq
      have hend := place_literal hpre []
      rw [List.append_nil] at hend
      rw [place_literal hpre,hend,append_le_append_iff]
      exact cons_le_of_lt hc _ _
  | cons x r =>
    have hdrop : (pre ++ x::r).drop (pre.length+1) = r := by
      rw [← List.drop_drop,List.drop_left]
      rfl
    have hx : charAt (x::r) 0 = x := rfl
    have hrank : globRank x = 3 := globRank_literal (hrest x List.mem_cons_self)
    rw [if_neg (List.cons_ne_nil x r),hlookup,hdrop,hx]
    cases hget : SortedMap.get ch x with
    | none =>
      refine ⟨a₁,rfl,hr₁.congr ?_⟩
      intro q kv
      rw [mem_node_iff hf hsorted hordinary,below_iff hf hkeys hrest]
      simp [Next,hget]
    | some child =>
      obtain ⟨a₂,hrun,hr₂⟩ := hnext x r child rfl hget (st.addValues a₁) hst
      have hr₂' : Ranked a₂ (Next fnmatch pre (x::r) ch) place := by
        refine hr₂.map (fun q => pre ++ x::q) ?_ ?_
        · intro q kv
          rw [Next]
          simp [hget]
        · intro q q' _ _ _ _ hle
          rw [place_literal hpre,place_literal hpre,append_le_append_iff,place,place,hrest x List.mem_cons_self]
          exact (append_le_append_iff [globRank x] _ _).mpr hle
      refine ⟨a₁ ++ a₂,?_,hr₁.append hr₂' ?_ ?_⟩
      · rw [Option.bind_some,← addValues_addValues]
        exact hrun
      · intro q kv
        rw [mem_node_iff hf hsorted hordinary,below_iff hf hkeys hrest]
        simp
      · rintro q q' kv kv' hq ⟨y,r',heq,-,-,q',rfl,-⟩
        obtain ⟨rfl,rfl⟩ := List.cons.inj heq
        obtain ⟨c,z,hc,rfl⟩ := hlow hq
        exact place_le hpre (by omega) z q'

theorem searchRanked_differs (hf : FnmatchSpec fnmatch) {lit s' : CString} {c : UInt8} (fuel : ℕ)
    (hbytes : ∀ x ∈ lit ++ c::rest, PatternByte x) (hlit : Literal lit) (hc : isGlob c = false) (hascii : c < 0x80)
    (hnot : sameChar c (charAt s' 0) = false) (hwalk : walkPrefix (lit ++ c::rest) (lit ++ s') 0 = .differs) :
    SearchRanked fnmatch (fuel+1) (.node (lit ++ c::rest,v) ch) (lit ++ s') := by
  intro st _
  refine ⟨[],?_,.nil ?_⟩
  · have hnamed : treeReader.named (.node (lit ++ c::rest,v) ch) = some true := rfl
    have hpre : treeReader.pre (.node (lit ++ c::rest,v) ch) = some (lit ++ c::rest) := rfl
    rw [trieSearchF_succ,hnamed,hpre]
    simp only [Option.bind_some,if_true,hwalk]
    rfl
  · rintro q kv ⟨hmem,hm⟩
    have hhead : s'.head? ≠ some c := by
      intro hhead
      obtain ⟨s'',rfl⟩ : ∃ s'', s' = c::s'' := ⟨_,List.eq_cons_of_mem_head? (Option.mem_def.mpr hhead)⟩
      have hsame : sameChar c c = true := by simp [sameChar,hascii]
      exact Bool.false_ne_true (hnot.symm.trans hsame)
    obtain ⟨q,rfl⟩ := prefix_of_find (List.ne_nil_of_mem hmem)
    rw [List.append_assoc,List.cons_append] at hm
    exact hf.differs (ordinary_of_literal hbytes hlit) ⟨hc,(hbytes c (by simp)).2⟩ _ hhead hm

/-- With enough fuel a search for a string without globs finds what matches, in this order. -/
theorem exists_searchRanked (hf : FnmatchSpec fnmatch) (hroom : n+2 < lineMax) {t : StringTree} {s : CString}
    (hordered : Ordered t) (hletters : Letters (fun c => PatternByte c ∧ c < 0x80) t) (hwithin : Within n t)
    (hs : Literal s) : ∃ N, ∀ fuel, N ≤ fuel → SearchRanked fnmatch fuel t s := by
  induction hlen : s.length using Nat.strong_induction_on generalizing t s n with
  | _ len ih =>
    obtain ⟨⟨pre,v⟩,ch⟩ := t
    have hnode := hordered
    cases hnode with
    | node hsorted hchildren =>
    cases hletters with
    | node hbytes hbelow =>
    obtain ⟨hpre,hkeys⟩ := hbytes
    have hbytes : ∀ x ∈ pre, PatternByte x := fun x hx => (hpre x hx).1
    have hnul : 0 ∉ pre := fun hmem => (hbytes 0 hmem).1 rfl
    rcases walkPrefix_cases hnul s 0 with
      ⟨lit,c,rest,rfl,hlit,⟨s',rfl⟩,hc,hwalk⟩ | ⟨lit,c,rest,rfl,hlit,⟨s',rfl⟩,hc,hnot,hwalk⟩ | ⟨hlit,⟨s',rfl⟩,hwalk⟩
    · obtain ⟨N,hN⟩ := addsRanked fnmatch s' hordered
      refine ⟨N+1,?_⟩
      intro fuel hfuel
      obtain ⟨fuel,rfl⟩ : ∃ m, fuel = m+1 := ⟨fuel-1,by omega⟩
      exact searchRanked_glob hf (hN fuel (by omega)) hwithin hroom hbytes hlit hc hwalk
    · refine ⟨1,?_⟩
      intro fuel hfuel
      obtain ⟨fuel,rfl⟩ : ∃ m, fuel = m+1 := ⟨fuel-1,by omega⟩
      rw [List.drop_left] at hnot
      exact searchRanked_differs hf fuel hbytes hlit hc (hpre c (by simp)).2 hnot hwalk
    · cases hwithin with
      | node hlen' hlt hch =>
        have hs' : Literal s' := fun c hc => hs c (List.mem_append_right _ hc)
        obtain ⟨N₁,hN₁⟩ := exists_bound fun e he => addsRanked fnmatch s' (hchildren e he)
        obtain ⟨N₂,hN₂⟩ : ∃ N, ∀ fuel, N ≤ fuel → ∀ x r child, s' = x::r → SortedMap.get ch x = some child →
            SearchRanked fnmatch fuel child r := by
          cases s' with
          | nil => exact ⟨0,by simp⟩
          | cons x r =>
            cases hget : SortedMap.get ch x with
            | none =>
              refine ⟨0,?_⟩
              rintro fuel - x' r' child ⟨⟩ hsome
              rw [hget] at hsome
              cases hsome
            | some child =>
              have hmem := SortedMap.mem_of_get hget
              obtain ⟨N,hN⟩ := ih r.length (by simp [← hlen]; omega) (by omega) (hchildren _ hmem) (hbelow _ hmem)
                (hch _ hmem) (fun c hc => hs' c (List.mem_cons_of_mem _ hc)) rfl
              refine ⟨N,?_⟩
              rintro fuel hfuel x' r' child' ⟨⟩ hsome
              rw [hget] at hsome
              cases hsome
              exact hN fuel hfuel
        refine ⟨max N₁ N₂+1,?_⟩
        intro fuel hfuel
        obtain ⟨fuel,rfl⟩ : ∃ m, fuel = m+1 := ⟨fuel-1,by omega⟩
        exact searchRanked_matched hf hsorted (hN₁ fuel (by omega)) hch (by omega) hbytes (fun e he => (hkeys e he).1)
          hlit hs' hwalk (hN₂ fuel (by omega))

end Way

section Winner

variable {fnmatch : CString → CString → Bool} {l : List Insertion}

/-- Two patterns that match a string without globs have different places. -/
theorem place_injective (hf : FnmatchSpec fnmatch) {m p p' : CString} (hp : ∀ c ∈ p, c ≠ chr '\\')
    (hp' : ∀ c ∈ p', c ≠ chr '\\') (hm : fnmatch p m = true) (hm' : fnmatch p' m = true) (h : place p = place p') :
    p = p' := by
  induction p generalizing p' m with
  | nil =>
    cases p' with
    | nil => rfl
    | cons c q =>
      obtain rfl := (hf.nil m).mp hm
      by_cases hc : isGlob c = true
      · have := globRank_lt hc
        have heq := (List.cons.inj (h.trans (by rw [place]))).1
        omega
      · rw [hf.ordinary_nil c q ⟨by simpa using hc,hp' c List.mem_cons_self⟩] at hm'
        cases hm'
  | cons c q ih =>
    cases p' with
    | nil =>
      obtain rfl := (hf.nil m).mp hm'
      by_cases hc : isGlob c = true
      · have := globRank_lt hc
        have heq := (List.cons.inj (h.symm.trans (by rw [place]))).1
        omega
      · rw [hf.ordinary_nil c q ⟨by simpa using hc,hp c List.mem_cons_self⟩] at hm
        cases hm
    | cons c' q' =>
      have hplaces := h
      rw [place,place] at hplaces
      obtain ⟨hrank,hrest⟩ := List.cons.inj hplaces
      by_cases hc : isGlob c = true
      · by_cases hc' : isGlob c' = true
        · obtain rfl : c = c' := by
            rcases isGlob_cases hc with rfl | rfl | rfl <;> rcases isGlob_cases hc' with rfl | rfl | rfl <;>
              first | rfl | exact absurd hrank (by decide)
          rw [if_pos hc,if_pos hc] at hrest
          rw [globPlace_injective hrest]
        · have := globRank_lt hc
          have := globRank_literal (by simpa using hc' : isGlob c' = false)
          omega
      · have hordinary : Ordinary c := ⟨by simpa using hc,hp c List.mem_cons_self⟩
        by_cases hc' : isGlob c' = true
        · have := globRank_lt hc'
          have := globRank_literal hordinary.1
          omega
        · have hordinary' : Ordinary c' := ⟨by simpa using hc',hp' c' List.mem_cons_self⟩
          cases m with
          | nil =>
            rw [hf.ordinary_nil c q hordinary] at hm
            cases hm
          | cons x m =>
            obtain ⟨rfl,hq⟩ := (hf.ordinary c q x m hordinary).mp hm
            obtain ⟨rfl,hq'⟩ := (hf.ordinary c' q' _ m hordinary').mp hm'
            rw [if_neg hc,if_neg hc] at hrest
            rw [ih (fun y hy => hp y (List.mem_cons_of_mem _ hy)) (fun y hy => hp' y (List.mem_cons_of_mem _ hy)) hq hq'
              hrest]

theorem getByName_foldl (adds : List (CString × CString)) (name : CString) :
    ((adds.foldl hwdbAddProperty []).getByName name).bind (·.value) = lastEntry adds (chr ' '::name) := by
  induction adds using List.reverseRecOn with
  | nil => rfl
  | append_singleton adds kv ih =>
    obtain ⟨key,value⟩ := kv
    have hsorted := (foldl_hwdbAddProperty adds).1
    rw [List.foldl_append,List.foldl_cons,List.foldl_nil,lastEntry_append]
    have hsingle : lastEntry [(key,value)] (chr ' '::name) = if key = chr ' '::name then some value else none := by
      rw [lastEntry,List.reverse_singleton,SortedMap.get_cons]
      rfl
    rw [hsingle]
    rcases key_cases key with ⟨hno,hkey⟩ | ⟨hyes,hkey⟩
    · have hskip : hwdbAddProperty (adds.foldl hwdbAddProperty []) (key,value) = adds.foldl hwdbAddProperty [] :=
        if_pos hno
      rw [hskip,if_neg (hkey name),Option.none_or,ih]
    · have hadd : hwdbAddProperty (adds.foldl hwdbAddProperty []) (key,value) =
          (adds.foldl hwdbAddProperty []).add (key.drop 1) (some value) := if_neg (by simpa using hyes)
      rw [hadd]
      by_cases hname : key = chr ' '::name
      · rw [if_pos hname,hname,List.drop_one,List.tail_cons,hsorted.getByName_add]
        rfl
      · have hne : key.drop 1 ≠ name := by
          rintro rfl
          exact hname hkey
        rw [if_neg hname,Option.none_or,UdevList.getByName_add_ne _ (Ne.symm hne),ih]

/-- The entries of a lookup are the values of the patterns that match. Those for a string
without globs come in the order of the places. -/
theorem exists_entries (hf : FnmatchSpec fnmatch) (hl : NulFree l)
    (hpattern : ∀ r ∈ l, r.1.length < 2000 ∧ ∀ c ∈ r.1, c < 0x80 ∧ c ≠ chr '\\') {version : ℕ}
    (hsmall : (trieStore version (insertAll trieNew l)).length < 2^64) {m : CString} (hm : Literal m) :
    ∃ adds : List (CString × CString), (∃ N, ∀ fuel, N ≤ fuel →
        hwdbLookup fnmatch fuel (trieStore version (insertAll trieNew l)) m = some (adds.foldl hwdbAddProperty [])) ∧
      Ranked adds (fun p kv => lastValue l p kv.1 = some kv.2 ∧ fnmatch p m = true) place := by
  have hroom : 1999+2 < lineMax := by decide
  have hletters : Letters (fun c => PatternByte c ∧ c < 0x80) (insertAll trieNew l).tree := by
    refine letters_insertAll hl ?_
    intro r hr c hc
    obtain ⟨hascii,hback⟩ := (hpattern r hr).2 c hc
    exact ⟨⟨ne_of_mem_of_not_mem hc (hl r hr).1,hback⟩,hascii⟩
  have hwithin : Within 1999 (insertAll trieNew l).tree := by
    refine within_insertAll hl ?_
    intro r hr
    have := (hpattern r hr).1
    omega
  obtain ⟨N,hN⟩ := exists_searchRanked hf hroom (ordered_insertAll hl) hletters hwithin hm
  obtain ⟨adds,hrun,hranked⟩ := hN N le_rfl {} rfl
  refine ⟨adds,⟨N,?_⟩,hranked.congr ?_⟩
  · intro fuel hfuel
    rw [hwdbLookup_trieStore hl hsmall,trieSearchF_mono hfuel hrun]
    rfl
  · rintro p ⟨key,value⟩
    rw [mem_find_insertAll hl]

def Gives (fnmatch : CString → CString → Bool) (l : List Insertion) (m key p : CString) : Prop :=
  (lastValue l p key).isSome = true ∧ fnmatch p m = true ∧
    ∀ p', p' ≠ p → (lastValue l p' key).isSome = true → fnmatch p' m = true → place p' < place p

theorem gives_of_lastEntry (hf : FnmatchSpec fnmatch) (hback : ∀ r ∈ l, ∀ c ∈ r.1, c ≠ chr '\\') {m key value : CString}
    {adds : List (CString × CString)}
    (h : Ranked adds (fun p kv => lastValue l p kv.1 = some kv.2 ∧ fnmatch p m = true) place)
    (hlast : lastEntry adds key = some value) : ∃ p, lastValue l p key = some value ∧ Gives fnmatch l m key p := by
  have hplain : ∀ {p}, (lastValue l p key).isSome = true → ∀ c ∈ p, c ≠ chr '\\' := by
    intro p hp
    obtain ⟨r,hr,rfl,-⟩ := (lastValue_isSome l p key).mp hp
    exact hback r hr
  obtain ⟨p,⟨hp,hmatch⟩,hle⟩ := h.best _ _ hlast
  have hsome : (lastValue l p key).isSome = true := by rw [hp]; rfl
  refine ⟨p,hp,hsome,hmatch,?_⟩
  intro p' hne hp' hmatch'
  obtain ⟨w,hw⟩ := Option.isSome_iff_exists.mp hp'
  refine lt_of_le_of_ne (hle p' w ⟨hw,hmatch'⟩) ?_
  intro heq
  exact hne (place_injective hf (hplain hp') (hplain hsome) hmatch' hmatch heq)

theorem Gives.unique {m key p p' : CString} (h : Gives fnmatch l m key p) (h' : Gives fnmatch l m key p') : p = p' := by
  by_contra hne
  exact absurd (h.2.2 p' (Ne.symm hne) h'.1 h'.2.1) (not_lt_of_gt (h'.2.2 p hne h.1 h.2.1))

/-- Of the patterns that match, the one with the highest place gives the value of a property. -/
theorem lookup_winner (hf : FnmatchSpec fnmatch) (hl : NulFree l)
    (hpattern : ∀ r ∈ l, r.1.length < 2000 ∧ ∀ c ∈ r.1, c < 0x80 ∧ c ≠ chr '\\') {version : ℕ}
    (hsmall : (trieStore version (insertAll trieNew l)).length < 2^64) {m : CString} (hm : Literal m) :
    ∃ props : UdevList, (∃ N, ∀ fuel, N ≤ fuel →
        hwdbLookup fnmatch fuel (trieStore version (insertAll trieNew l)) m = some props) ∧
      props.Sorted ∧
      ∀ name value, (props.getByName name).bind (·.value) = some value ↔
        ∃ p, lastValue l p (chr ' '::name) = some value ∧ Gives fnmatch l m (chr ' '::name) p := by
  obtain ⟨adds,hrun,hranked⟩ := exists_entries hf hl hpattern hsmall hm
  have hback : ∀ r ∈ l, ∀ c ∈ r.1, c ≠ chr '\\' := fun r hr c hc => ((hpattern r hr).2 c hc).2
  refine ⟨adds.foldl hwdbAddProperty [],hrun,(foldl_hwdbAddProperty adds).1,?_⟩
  intro name value
  rw [getByName_foldl]
  constructor
  · exact gives_of_lastEntry hf hback hranked
  · rintro ⟨p,hp,hgives⟩
    have hmem : (chr ' '::name,value) ∈ adds := (hranked.mem _).mpr ⟨p,hp,hgives.2.1⟩
    cases hlast : lastEntry adds (chr ' '::name) with
    | none => exact absurd rfl (lastEntry_eq_none.mp hlast _ hmem)
    | some v =>
      obtain ⟨q,hq,hgives'⟩ := gives_of_lastEntry hf hback hranked hlast
      obtain rfl := hgives.unique hgives'
      rw [← hq,hp]

def keyboardRecords : List Insertion :=
  [(str "usb:v04F2p0402*",str " ID_MODEL",str "Keyboard"),(str "usb:v04F2p*",str " ID_MODEL",str "Any"),
   (str "usb:v04F2p0402",str " ID_VENDOR",str "Chicony"),(str "usb:*",str " ID_VENDOR",str "Some")]

theorem lookup_winner_keyboard : ∃ props : UdevList,
    (∃ N, ∀ fuel, N ≤ fuel →
      hwdbLookup simpleFnmatch fuel (trieStore 220 (insertAll trieNew keyboardRecords)) (str "usb:v04F2p0402") =
        some props) ∧
    (props.getByName (str "ID_MODEL")).bind (·.value) = some (str "Keyboard") := by
  have hsmall : (trieStore 220 (insertAll trieNew keyboardRecords)).length < 2^64 := by decide +kernel
  have hm : Literal (str "usb:v04F2p0402") := by
    intro c hc
    have hany : (str "usb:v04F2p0402").any isGlob = false := by decide
    exact Bool.eq_false_of_not_eq_true (List.any_eq_false.mp hany c hc)
  obtain ⟨props,hrun,-,hvalue⟩ := lookup_winner fnmatchSpec_simpleFnmatch (by decide +kernel) (by decide +kernel) hsmall hm
  refine ⟨props,hrun,(hvalue _ _).mpr ⟨str "usb:v04F2p0402*",by decide,by decide,by decide +kernel,?_⟩⟩
  intro p' hne hp' hmatch
  obtain ⟨r,hr,rfl,hkey⟩ := (lastValue_isSome keyboardRecords p' _).mp hp'
  simp only [keyboardRecords,List.mem_cons,List.not_mem_nil,or_false] at hr
  rcases hr with rfl | rfl | rfl | rfl
  · exact absurd rfl hne
  · decide
  · exact absurd hkey (by decide)
  · exact absurd hkey (by decide)

end Winner

end Hwdb
end Udev
