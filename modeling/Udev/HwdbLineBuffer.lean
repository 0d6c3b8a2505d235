import Udev.HwdbImport
import Udev.HwdbLookup
import Udev.LogicalLines
import Mathlib.Data.List.DropRight

/-! The line buffer of a lookup in the hardware database. A pattern has at most as many bytes as a line
that is read, so there is room for it, but the longest of them cannot be read back. -/
namespace Udev
namespace Hwdb

open RadixTree CString Text

section Checked

/-- `linebuf_add` and `linebuf_add_char`, whose result the lookup does not look at. -/
def Search.tryAdd (s : CString) (st : Search) : Except Fault Search :=
  if st.buf.length+s.length ≥ lineMax then .error .add else .ok { st with buf := st.buf ++ s }

/-- A search that stops where the line buffer does not do what it is asked for. -/
def SearchMode.checking : SearchMode (Except Fault) where
  linebufAdd := Search.tryAdd
  stop := .error

def checkLookup (fnmatch : CString → CString → Bool) (fuel : ℕ) (map : List UInt8) (search : CString) : Except Fault Search :=
  SearchMode.checking.orStop .file (nodesRootOff map) >>= fun root =>
    SearchMode.checking.trieSearchF (fileReader map) fnmatch fuel root search {}

end Checked

section Refines

variable {ν : Type} {A : NodeReader ν} {fnmatch : CString → CString → Bool}

theorem bind_ok {α β : Type} {x : Except Fault α} {f : α → Except Fault β} {b : β} (h : x >>= f = .ok b) :
    ∃ a, x = .ok a ∧ f a = .ok b := by
  cases x with
  | error e => cases h
  | ok a => exact ⟨a,rfl,h⟩

theorem orStop_ok {α : Type} {e : Fault} {x : Option α} {a : α} (h : SearchMode.checking.orStop e x = .ok a) : x = some a := by
  cases x with
  | none => cases h
  | some b => rw [SearchMode.orStop_some] at h; rw [Except.ok.inj h]

theorem tryAdd_ok {s : CString} {st st' : Search} (h : st.tryAdd s = .ok st') : st.linebufAdd s = st' := by
  rw [Search.tryAdd] at h
  by_cases hfull : st.buf.length+s.length ≥ lineMax
  · rw [if_pos hfull] at h
    cases h
  · rw [if_neg hfull] at h
    rw [Search.linebufAdd,if_neg hfull,Except.ok.inj h]

theorem addMatching_ok {search : CString} {values : List (CString × CString)} {st st' : Search}
    (h : SearchMode.checking.addMatching fnmatch search values st = .ok st') :
    addMatching fnmatch search values st = some st' := by
  rw [SearchMode.addMatching] at h
  rw [addMatching_eq]
  by_cases hnil : values = []
  · rw [if_pos hnil] at h ⊢
    rw [Except.ok.inj h]
  · rw [if_neg hnil] at h ⊢
    obtain ⟨pattern,hget,hlast⟩ := bind_ok h
    rw [orStop_ok hget,Option.map_some,Except.ok.inj hlast]

theorem foldlM_ok {γ : Type} {f : Search → γ → Except Fault Search} {g : Search → γ → Option Search}
    (h : ∀ st e st', f st e = .ok st' → g st e = some st') (l : List γ) {st st' : Search}
    (hf : l.foldlM f st = .ok st') : l.foldlM g st = some st' := by
  induction l generalizing st with
  | nil =>
    rw [← Except.ok.inj hf]
    rfl
  | cons e l ih =>
    rw [List.foldlM_cons] at hf ⊢
    obtain ⟨st₁,hstep,hrest⟩ := bind_ok hf
    rw [h st e st₁ hstep]
    exact ih hrest

theorem trieFnmatchF_ok {search : CString} {fuel : ℕ} {node : ν} {p : ℕ} {st st' : Search}
    (h : SearchMode.checking.trieFnmatchF A fnmatch search fuel node p st = .ok st') :
    trieFnmatchF A fnmatch search fuel node p st = some st' := by
  induction fuel generalizing node p st st' with
  | zero => cases h
  | succ fuel ih =>
    obtain ⟨pre,hpre,h⟩ := bind_ok h
    obtain ⟨children,hchildren,h⟩ := bind_ok h
    obtain ⟨values,hvalues,h⟩ := bind_ok h
    obtain ⟨st₁,hadd,h⟩ := bind_ok h
    obtain ⟨st₂,hloop,h⟩ := bind_ok h
    obtain ⟨st₃,hmatch,hrem⟩ := bind_ok h
    have hloop' : children.foldlM (fun st e => (trieFnmatchF A fnmatch search fuel e.2 0 (st.linebufAdd [e.1])).bind
        (Search.linebufRem 1)) st₁ = some st₂ := by
      refine foldlM_ok ?_ children hloop
      intro st e st' hstep
      obtain ⟨st₄,hadd',hstep⟩ := bind_ok hstep
      obtain ⟨st₅,hrun,hrem'⟩ := bind_ok hstep
      rw [tryAdd_ok hadd',ih hrun,Option.bind_some,orStop_ok hrem']
    rw [trieFnmatchF_succ,orStop_ok hpre,orStop_ok hchildren,orStop_ok hvalues]
    simp only [Option.bind_some,tryAdd_ok hadd,hloop',addMatching_ok hmatch,orStop_ok hrem]

theorem globChild_ok {search : CString} {fuel : ℕ} {node : ν} {c : UInt8} {st st' : Search}
    (h : SearchMode.checking.globChild A fnmatch search fuel node c st = .ok st') :
    globChild A fnmatch search fuel node c st = some st' := by
  obtain ⟨child,hchild,h⟩ := bind_ok h
  rw [globChild_eq,orStop_ok hchild]
  cases child with
  | none => rw [← Except.ok.inj h]; rfl
  | some child =>
    obtain ⟨st₁,hadd,h⟩ := bind_ok h
    obtain ⟨st₂,hrun,hrem⟩ := bind_ok h
    simp only [Option.bind_some,tryAdd_ok hadd,trieFnmatchF_ok hrun,orStop_ok hrem]

theorem trieSearchF_ok {search : CString} {fuel : ℕ} {node : ν} {st st' : Search}
    (h : SearchMode.checking.trieSearchF A fnmatch fuel node search st = .ok st') :
    trieSearchF A fnmatch fuel node search st = some st' := by
  induction fuel generalizing node search st st' with
  | zero => cases h
  | succ fuel ih =>
    obtain ⟨named,hnamed,h⟩ := bind_ok h
    obtain ⟨pre,hpre,h⟩ := bind_ok h
    rw [trieSearchF_succ,orStop_ok hnamed,orStop_ok hpre,Option.bind_some,Option.bind_some]
    generalize (if named then walkPrefix pre search 0 else .matched 0) = walk at h ⊢
    cases walk with
    | glob p => exact trieFnmatchF_ok h
    | differs => rw [← Except.ok.inj h]
    | matched p =>
      obtain ⟨st₃,hglobs,hend⟩ := bind_ok h
      obtain ⟨st₁,hstar,hglobs⟩ := bind_ok hglobs
      obtain ⟨st₂,hquestion,hbracket⟩ := bind_ok hglobs
      simp only [globChild_ok hstar,globChild_ok hquestion,globChild_ok hbracket,Option.bind_some]
      rw [SearchMode.searchNext] at hend
      by_cases hnil : search.drop p = []
      · rw [if_pos hnil] at hend ⊢
        obtain ⟨values,hvalues,hlast⟩ := bind_ok hend
        rw [orStop_ok hvalues,Option.map_some,Except.ok.inj hlast]
      · rw [if_neg hnil] at hend ⊢
        obtain ⟨child,hchild,hlast⟩ := bind_ok hend
        rw [orStop_ok hchild,Option.bind_some]
        cases child with
        | none => rw [← Except.ok.inj hlast]
        | some child => exact ih hlast

theorem checkLookup_ok {search : CString} {fuel : ℕ} {map : List UInt8} {st : Search}
    (h : checkLookup fnmatch fuel map search = .ok st) : hwdbLookup fnmatch fuel map search = some st.props := by
  obtain ⟨root,hroot,h⟩ := bind_ok h
  rw [hwdbLookup,orStop_ok hroot,Option.bind_some,trieSearchF_ok h]
  rfl

end Refines

section Outcome

/-- A step fails when `linebuf_get` has nothing, and adds properties only otherwise. -/
def Outcome (bad : Prop) (st : Search) (r : Except Fault Search) : Prop :=
  bad ∧ r = .error .get ∨ ¬bad ∧ ∃ adds, r = .ok (st.addValues adds)

theorem outcome_ok {bad : Prop} (hbad : ¬bad) (st : Search) : Outcome bad st (.ok st) :=
  Or.inr ⟨hbad,[],rfl⟩

theorem Outcome.bind {bad bad' : Prop} {st : Search} {r : Except Fault Search} {f : Search → Except Fault Search}
    (h : Outcome bad st r) (hf : ∀ adds, Outcome bad' (st.addValues adds) (f (st.addValues adds))) :
    Outcome (bad ∨ bad') st (r >>= f) := by
  rcases h with ⟨hbad,rfl⟩ | ⟨hok,adds,rfl⟩
  · exact Or.inl ⟨Or.inl hbad,rfl⟩
  · rcases hf adds with ⟨hbad,hrun⟩ | ⟨hok',adds',hrun⟩
    · exact Or.inl ⟨Or.inr hbad,hrun⟩
    · exact Or.inr ⟨not_or.mpr ⟨hok,hok'⟩,adds ++ adds',hrun.trans (by rw [addValues_addValues])⟩

theorem Outcome.congr {bad bad' : Prop} {st : Search} {r : Except Fault Search} (h : Outcome bad st r)
    (hiff : bad ↔ bad') : Outcome bad' st r := by
  rw [Outcome,← hiff]
  exact h

theorem foldlM_outcome {f : Search → UInt8 × StringTree → Except Fault Search} {ch : List (UInt8 × StringTree)}
    {buf : CString} {bad : UInt8 × StringTree → Prop}
    (h : ∀ e ∈ ch, ∀ st : Search, st.buf = buf → Outcome (bad e) st (f st e)) {st : Search} (hst : st.buf = buf) :
    Outcome (∃ e ∈ ch, bad e) st (ch.foldlM f st) := by
  induction ch generalizing st with
  | nil => exact outcome_ok (by simp) st
  | cons e ch ih =>
    rw [List.foldlM_cons,List.exists_mem_cons_iff]
    exact (h e List.mem_cons_self st hst).bind fun adds => ih (fun x hx => h x (List.mem_cons_of_mem _ hx)) hst

theorem tryAdd_fits {st : Search} {s : CString} (h : st.buf.length+s.length < lineMax) :
    st.tryAdd s = .ok { st with buf := st.buf ++ s } := if_neg (Nat.not_le_of_lt h)

theorem Outcome.rem {bad : Prop} {st : Search} {s : CString} {r : Except Fault Search}
    (h : Outcome bad { st with buf := st.buf ++ s } r) :
    Outcome bad st (r >>= fun st => SearchMode.checking.orStop .rem (st.linebufRem s.length)) := by
  rcases h with ⟨hbad,rfl⟩ | ⟨hok,adds,rfl⟩
  · exact Or.inl ⟨hbad,rfl⟩
  · refine Or.inr ⟨hok,adds,?_⟩
    have hlen : (st.buf ++ s).length-s.length = st.buf.length := by rw [List.length_append]; omega
    have hge : (st.buf ++ s).length ≥ s.length := by rw [List.length_append]; omega
    change SearchMode.checking.orStop .rem (Search.linebufRem s.length (Search.addValues _ adds)) = _
    simp only [Search.linebufRem,Search.addValues,if_pos hge,hlen,List.take_left]
    rfl

theorem addMatching_outcome (fnmatch : CString → CString → Bool) (search : CString)
    (values : List (CString × CString)) (st : Search) :
    Outcome (values ≠ [] ∧ lineMax ≤ st.buf.length+1) st 
      (SearchMode.checking.addMatching fnmatch search values st) := by
  rw [SearchMode.addMatching]
  by_cases hnil : values = []
  · rw [if_pos hnil]
    exact outcome_ok (fun h => h.1 hnil) st
  · rw [if_neg hnil]
    by_cases hfull : lineMax ≤ st.buf.length+1
    · have hget : st.linebufGet = none := if_pos hfull
      rw [hget]
      exact Or.inl ⟨⟨hnil,hfull⟩,rfl⟩
    · have hget : st.linebufGet = some st.buf := if_neg hfull
      rw [hget]
      refine Or.inr ⟨fun h => hfull h.2,if fnmatch st.buf search then values else [],?_⟩
      rw [SearchMode.orStop_some,pure_bind]
      by_cases hm : fnmatch st.buf search = true
      · rw [if_pos hm,if_pos hm]
        rfl
      · rw [if_neg hm,if_neg hm,addValues_nil]
        rfl

end Outcome

section Match

/-- Behind `k` bytes in the buffer, some pattern below a node leaves no room for a terminator that
`linebuf_get` accepts. -/
def Overfull (k : ℕ) (t : StringTree) : Prop := ∃ kv q, kv ∈ find [] t q ∧ lineMax ≤ k+q.length+1

theorem overfull_node {pre : CString} {v : List (CString × CString)} {ch : List (UInt8 × StringTree)}
    (hsorted : SortedMap.Sorted ch) (k : ℕ) :
    Overfull k (.node (pre,v) ch) ↔
      (∃ e ∈ ch, Overfull (k+pre.length+1) e.2) ∨ v ≠ [] ∧ lineMax ≤ k+pre.length+1 := by
  have hnode : ∀ kv, (∃ q, kv ∈ find [] (.node (pre,v) ch) q ∧ lineMax ≤ k+q.length+1) ↔
      (∃ e ∈ ch, ∃ q, kv ∈ find [] e.2 q ∧ lineMax ≤ k+(pre ++ e.1::q).length+1) ∨ kv ∈ v ∧ lineMax ≤ k+pre.length+1 :=
    fun _ => mem_find_node hsorted (P := fun q => lineMax ≤ k+q.length+1)
  have hlen : ∀ (c : UInt8) (q : CString), k+(pre ++ c::q).length+1 = k+pre.length+1+q.length+1 := by
    intro c q
    rw [List.length_append,List.length_cons]
    omega
  constructor
  · rintro ⟨kv,hfound⟩
    rcases (hnode kv).mp hfound with ⟨e,he,q,hmem,hfull⟩ | ⟨hmem,hfull⟩
    · exact Or.inl ⟨e,he,kv,q,hmem,(hlen e.1 q) ▸ hfull⟩
    · exact Or.inr ⟨List.ne_nil_of_mem hmem,hfull⟩
  · rintro (⟨e,he,kv,q,hmem,hfull⟩ | ⟨hne,hfull⟩)
    · exact ⟨kv,(hnode kv).mpr (Or.inl ⟨e,he,q,hmem,(hlen e.1 q).symm ▸ hfull⟩)⟩
    · obtain ⟨kv,hmem⟩ := List.exists_mem_of_ne_nil v hne
      exact ⟨kv,(hnode kv).mpr (Or.inr ⟨hmem,hfull⟩)⟩

theorem length_of_find {n : ℕ} {t : StringTree} (h : Within n t) {q : CString} (hq : find [] t q ≠ []) :
    q.length ≤ n := by
  induction h generalizing q with
  | @node n pre v ch hlen hlt hch ih =>
    rcases prefix_cases pre q with rfl | ⟨c,rest,rfl⟩ | hother
    · exact hlen
    · rw [find_child] at hq
      cases hget : SortedMap.get ch c with
      | none =>
        rw [hget] at hq
        exact absurd rfl hq
      | some child =>
        rw [hget] at hq
        have hmem := SortedMap.mem_of_get hget
        have hrest := ih _ hmem hq
        have hroom := hlt _ hmem
        rw [List.length_append,List.length_cons]
        omega
    · exact absurd (find_other hother) hq

theorem not_overfull {n k : ℕ} {t : StringTree} (h : Within n t) (hroom : k+n+1 < lineMax) : ¬Overfull k t := by
  rintro ⟨kv,q,hmem,hfull⟩
  have hlen := length_of_find h (List.ne_nil_of_mem hmem)
  omega

variable (fnmatch : CString → CString → Bool)

/-- `trie_fnmatch_f` at a node fails only for a pattern that is too long. -/
def FitsFnmatch (fuel : ℕ) (t : StringTree) : Prop :=
  ∀ (search : CString) (p n : ℕ) (st : Search), Within n (dropPrefix p t) → st.buf.length+n < lineMax →
    Outcome (Overfull st.buf.length (dropPrefix p t)) st (SearchMode.checking.trieFnmatchF treeReader fnmatch search fuel t p st)

variable {fnmatch}

theorem FitsFnmatch.child {fuel : ℕ} {t : StringTree} (h : FitsFnmatch fnmatch fuel t) {n : ℕ} (hwithin : Within n t)
    (search : CString) (c : UInt8) (st : Search) (hroom : st.buf.length+1+n < lineMax) :
    Outcome (Overfull (st.buf.length+1) t) st
      (st.tryAdd [c] >>= fun st => SearchMode.checking.trieFnmatchF treeReader fnmatch search fuel t 0 st >>= fun st =>
        SearchMode.checking.orStop .rem (st.linebufRem 1)) := by
  have hadd : st.tryAdd [c] = .ok { st with buf := st.buf ++ [c] } :=
    tryAdd_fits (by rw [List.length_singleton]; omega)
  have hlen : (st.buf ++ [c]).length = st.buf.length+1 := by rw [List.length_append,List.length_singleton]
  have hrun := h search 0 n { st with buf := st.buf ++ [c] } (by rw [dropPrefix_zero]; exact hwithin)
    (by rw [hlen]; exact hroom)
  rw [dropPrefix_zero,hlen] at hrun
  rw [hadd]
  exact hrun.rem

variable (fnmatch) in
theorem exists_fitsFnmatch {t : StringTree} (ht : Ordered t) : ∃ N, ∀ fuel, N ≤ fuel → FitsFnmatch fnmatch fuel t := by
  induction ht with
  | @node data ch hsorted _ ih =>
    obtain ⟨pre,v⟩ := data
    obtain ⟨N,hN⟩ := exists_bound ih
    refine ⟨N+1,?_⟩
    intro fuel hfuel search p n st hwithin hroom
    obtain ⟨fuel,rfl⟩ : ∃ m, fuel = m+1 := ⟨fuel-1,by omega⟩
    obtain ⟨tail,htail⟩ : ∃ tail, pre.drop p = tail := ⟨_,rfl⟩
    rw [dropPrefix,htail] at hwithin ⊢
    cases hwithin with
    | node hlen hlt hch =>
      have hadd : st.tryAdd tail = .ok { st with buf := st.buf ++ tail } := tryAdd_fits (by omega)
      have hbuf : (st.buf ++ tail).length = st.buf.length+tail.length := List.length_append
      have hstep : ∀ e ∈ ch, ∀ st' : Search, st'.buf = st.buf ++ tail →
          Outcome (Overfull (st.buf.length+tail.length+1) e.2) st' (st'.tryAdd [e.1] >>= fun st =>
            SearchMode.checking.trieFnmatchF treeReader fnmatch search fuel e.2 0 st >>= fun st =>
              SearchMode.checking.orStop .rem (st.linebufRem 1)) := by
        intro e he st' hst'
        have hroom' : st'.buf.length+1+(n-(tail.length+1)) < lineMax := by
          have := hlt e he
          rw [hst',hbuf]
          omega
        have hchild := (hN fuel (by omega) e he).child (hch e he) search e.1 st' hroom'
        rwa [hst',hbuf] at hchild
      have hloop := foldlM_outcome hstep (rfl : ({ st with buf := st.buf ++ tail } : Search).buf = _)
      have hown : ∀ adds, Outcome (v ≠ [] ∧ lineMax ≤ st.buf.length+tail.length+1)
          (Search.addValues { st with buf := st.buf ++ tail } adds)
          (SearchMode.checking.addMatching fnmatch search v (Search.addValues { st with buf := st.buf ++ tail } adds)) := by
        intro adds
        rw [← hbuf]
        exact addMatching_outcome fnmatch search v (Search.addValues { st with buf := st.buf ++ tail } adds)
      have hrun := ((hloop.bind hown).congr (overfull_node hsorted st.buf.length).symm).rem
      have hpre : treeReader.pre (.node (pre,v) ch) = some pre := rfl
      have hchildren : treeReader.children (.node (pre,v) ch) = some ch := rfl
      have hvalues : treeReader.values (.node (pre,v) ch) = some v := rfl
      rw [SearchMode.trieFnmatchF,hpre,hchildren,hvalues]
      simp only [SearchMode.orStop_some,pure_bind,htail]
      rw [show SearchMode.checking.linebufAdd tail st = _ from hadd]
      rw [bind_assoc] at hrun
      exact hrun

end Match

section Search

variable {fnmatch : CString → CString → Bool} {fuel n : ℕ} {pre search : CString} {v : List (CString × CString)}
  {ch : List (UInt8 × StringTree)} {st : Search}

variable (pre v search) in
theorem globChild_outcome (hfits : ∀ e ∈ ch, FitsFnmatch fnmatch fuel e.2) (hch : ∀ e ∈ ch, Within n e.2)
    (hroom : 1+n < lineMax) (c : UInt8) (hst : st.buf = []) :
    Outcome (∃ t, SortedMap.get ch c = some t ∧ Overfull 1 t) st
      (SearchMode.checking.globChild treeReader fnmatch search fuel (.node (pre,v) ch) c st) := by
  have hlookup : lookupChild treeReader (.node (pre,v) ch) c = some (SortedMap.get ch c) := rfl
  rw [SearchMode.globChild,hlookup]
  cases hget : SortedMap.get ch c with
  | none => exact outcome_ok (by simp) st
  | some t =>
    have hmem := SortedMap.mem_of_get hget
    have hchild := (hfits _ hmem).child (hch _ hmem) search c st (by rw [hst]; exact hroom)
    rw [hst] at hchild
    exact hchild.congr (by simp)

def OverfullGlob (ch : List (UInt8 × StringTree)) : Prop :=
  ∃ c t, isGlob c = true ∧ SortedMap.get ch c = some t ∧ Overfull 1 t

theorem overfullGlob_iff (ch : List (UInt8 × StringTree)) : OverfullGlob ch ↔
    (∃ t, SortedMap.get ch (chr '*') = some t ∧ Overfull 1 t) ∨ (∃ t, SortedMap.get ch (chr '?') = some t ∧ Overfull 1 t) ∨
      ∃ t, SortedMap.get ch (chr '[') = some t ∧ Overfull 1 t := by
  constructor
  · rintro ⟨c,t,hglob,hget,hfull⟩
    rcases isGlob_cases hglob with rfl | rfl | rfl
    · exact Or.inl ⟨t,hget,hfull⟩
    · exact Or.inr (Or.inl ⟨t,hget,hfull⟩)
    · exact Or.inr (Or.inr ⟨t,hget,hfull⟩)
  · rintro (⟨t,hget,hfull⟩ | ⟨t,hget,hfull⟩ | ⟨t,hget,hfull⟩)
    · exact ⟨_,t,rfl,hget,hfull⟩
    · exact ⟨_,t,rfl,hget,hfull⟩
    · exact ⟨_,t,rfl,hget,hfull⟩

variable (pre v search) in
theorem globChildren_outcome (hfits : ∀ e ∈ ch, FitsFnmatch fnmatch fuel e.2) (hch : ∀ e ∈ ch, Within n e.2)
    (hroom : 1+n < lineMax) (hst : st.buf = []) :
    Outcome (OverfullGlob ch) st (SearchMode.checking.globChildren treeReader fnmatch search fuel (.node (pre,v) ch) st) := by
  have hchild := fun (c : UInt8) (st : Search) (hst : st.buf = []) =>
    globChild_outcome pre search v hfits hch hroom c hst
  refine ((hchild (chr '*') st hst).bind fun adds => ?_).congr (overfullGlob_iff ch).symm
  exact (hchild (chr '?') (st.addValues adds) hst).bind fun _ => hchild (chr '[') _ hst

theorem not_overfullGlob (hch : ∀ e ∈ ch, Within n e.2) (hroom : 1+n+1 < lineMax) : ¬OverfullGlob ch := by
  rintro ⟨c,t,-,hget,hfull⟩
  exact not_overfull (hch _ (SortedMap.mem_of_get hget)) hroom hfull

variable (fnmatch) in
def FitsSearch (fuel : ℕ) (t : StringTree) : Prop :=
  ∀ (s : CString) (n : ℕ) (st : Search), Within n t → n+1 < lineMax → st.buf = [] →
    Outcome False st (SearchMode.checking.trieSearchF treeReader fnmatch fuel t s st)

variable (pre v) in
theorem rest_outcome (hsearch : ∀ e ∈ ch, FitsSearch fnmatch fuel e.2) (hch : ∀ e ∈ ch, Within n e.2) (hroom : n+1 < lineMax)
    (s : CString) (p : ℕ) (hst : st.buf = []) :
    Outcome False st (SearchMode.checking.searchNext treeReader
      (fun child => SearchMode.checking.trieSearchF treeReader fnmatch fuel child (s.drop (p+1)))
      (.node (pre,v) ch) (s.drop p) st) := by
  rw [SearchMode.searchNext]
  by_cases hnil : s.drop p = []
  · rw [if_pos hnil]
    exact Or.inr ⟨not_false,v,rfl⟩
  · have hlookup : lookupChild treeReader (.node (pre,v) ch) (charAt (s.drop p) 0) =
        some (SortedMap.get ch (charAt (s.drop p) 0)) := rfl
    rw [if_neg hnil,hlookup,SearchMode.orStop_some,pure_bind]
    cases hget : SortedMap.get ch (charAt (s.drop p) 0) with
    | none => exact outcome_ok not_false st
    | some child =>
      have hmem := SortedMap.mem_of_get hget
      exact hsearch _ hmem _ n st (hch _ hmem) hroom hst

variable (fnmatch) in
theorem exists_fitsSearch {t : StringTree} (ht : Ordered t) : ∃ N, ∀ fuel, N ≤ fuel → FitsSearch fnmatch fuel t := by
  induction ht with
  | @node data ch hsorted hordered ih =>
    obtain ⟨pre,v⟩ := data
    obtain ⟨N₁,hN₁⟩ := exists_bound ih
    obtain ⟨N₂,hN₂⟩ := exists_bound fun e he => exists_fitsFnmatch fnmatch (hordered e he)
    obtain ⟨N₃,hN₃⟩ := exists_fitsFnmatch fnmatch (Tree.Forall.node hsorted hordered)
    refine ⟨N₁+N₂+N₃+1,?_⟩
    intro fuel hfuel s n st hwithin hroom hst
    obtain ⟨fuel,rfl⟩ : ∃ m, fuel = m+1 := ⟨fuel-1,by omega⟩
    have hnamed : treeReader.named (.node (pre,v) ch) = some true := rfl
    have hpre : treeReader.pre (.node (pre,v) ch) = some pre := rfl
    rw [SearchMode.trieSearchF,hnamed,hpre,SearchMode.orStop_some,SearchMode.orStop_some,pure_bind,pure_bind,if_pos rfl]
    cases walkPrefix pre s 0 with
    | glob p =>
      have hbelow := within_dropPrefix hwithin p
      have hrun := hN₃ fuel (by omega) (s.drop p) p n st hbelow (by rw [hst,List.length_nil]; omega)
      refine hrun.congr (iff_false_intro ?_)
      exact not_overfull hbelow (by rw [hst,List.length_nil]; omega)
    | differs => exact outcome_ok not_false st
    | matched p =>
      cases hwithin with
      | node hlen hlt hch =>
        have hmax : lineMax = 2048 := rfl
        have hglobs := globChildren_outcome pre (s.drop p) v (hN₂ fuel (by omega)) hch
          (by omega) hst
        have hno : ¬OverfullGlob ch := not_overfullGlob hch (by omega)
        refine (hglobs.bind fun adds => ?_).congr (or_iff_right hno)
        have hbuf : (st.addValues adds).buf = [] := hst
        exact rest_outcome pre v (hN₁ fuel (by omega)) hch (by omega) s p hbuf

/-- A pattern as long as a line can be, with a glob character at its begin. -/
def Overlong (t : StringTree) : Prop :=
  ∃ pattern, pattern.length = lineMax-1 ∧ isGlob (charAt pattern 0) = true ∧ find [] t pattern ≠ []

theorem overlong_iff {t : StringTree} (hroot : t.data.1 = []) (hwithin : Within (lineMax-1) t) :
    OverfullGlob t.children ↔ Overlong t := by
  obtain ⟨⟨pre,v⟩,ch⟩ := t
  obtain rfl : pre = [] := hroot
  have hmax : lineMax = 2048 := rfl
  have hfind : ∀ c rest, find [] (.node (([] : CString),v) ch) (c::rest) = (SortedMap.get ch c).elim [] (find [] · rest) :=
    fun c rest => find_child c rest
  constructor
  · rintro ⟨c,t,hglob,hget,kv,q,hmem,hfull⟩
    rw [Tree.children_node] at hget
    have hne : find [] (.node (([] : CString),v) ch) (c::q) ≠ [] := by
      rw [hfind,hget]
      exact List.ne_nil_of_mem hmem
    have hlen := length_of_find hwithin hne
    rw [List.length_cons] at hlen
    exact ⟨c::q,by rw [List.length_cons]; omega,hglob,hne⟩
  · rintro ⟨pattern,hlen,hglob,hne⟩
    cases pattern with
    | nil => exact absurd hglob (by decide)
    | cons c q =>
      rw [hfind] at hne
      cases hget : SortedMap.get ch c with
      | none =>
        rw [hget] at hne
        exact absurd rfl hne
      | some t =>
        rw [hget] at hne
        obtain ⟨kv,hmem⟩ := List.exists_mem_of_ne_nil _ hne
        rw [List.length_cons] at hlen
        exact ⟨c,t,hglob,hget,kv,q,hmem,by omega⟩

variable (fnmatch) in
/-- From the root on, a search fails only for a pattern that is too long, and then for every string. -/
theorem exists_rootSearch {t : StringTree} (ht : Ordered t) (hroot : t.data.1 = []) (hwithin : Within (lineMax-1) t) :
    ∃ N, ∀ fuel, N ≤ fuel → ∀ s, Outcome (Overlong t) {} (SearchMode.checking.trieSearchF treeReader fnmatch fuel t s {}) := by
  cases ht with
  | @node data ch hsorted hordered =>
    have hlong := overlong_iff hroot hwithin
    obtain ⟨pre,v⟩ := data
    obtain rfl : pre = [] := hroot
    obtain ⟨N₁,hN₁⟩ := exists_bound fun e he => exists_fitsSearch fnmatch (hordered e he)
    obtain ⟨N₂,hN₂⟩ := exists_bound fun e he => exists_fitsFnmatch fnmatch (hordered e he)
    refine ⟨N₁+N₂+1,?_⟩
    intro fuel hfuel s
    obtain ⟨fuel,rfl⟩ : ∃ m, fuel = m+1 := ⟨fuel-1,by omega⟩
    have hmax : lineMax = 2048 := rfl
    cases hwithin with
    | node hlen hlt hch =>
      rw [List.length_nil] at hch
      have hglobs := globChildren_outcome [] (s.drop 0) v (hN₂ fuel (by omega)) hch
        (by omega) (rfl : Search.buf {} = [])
      have hnamed : treeReader.named (.node (([] : CString),v) ch) = some true := rfl
      have hpre : treeReader.pre (.node (([] : CString),v) ch) = some [] := rfl
      rw [SearchMode.trieSearchF,hnamed,hpre,SearchMode.orStop_some,SearchMode.orStop_some,pure_bind,pure_bind,if_pos rfl]
      refine (hglobs.bind fun adds => ?_).congr ((or_iff_left not_false).trans hlong)
      have hbuf : (Search.addValues {} adds).buf = [] := rfl
      exact rest_outcome [] v (hN₁ fuel (by omega)) hch (by omega) s 0 hbuf

end Search

section Import

/-- The matches and the patterns that were inserted are lines. -/
structure Import.Bounded (s : Import) : Prop where
  matchs : ∀ m ∈ s.matchList, 0 ∉ m ∧ m.length < lineMax
  trie : ∃ l, NulFree l ∧ (∀ r ∈ l, r.1.length < lineMax) ∧ s.trie = insertAll trieNew l

theorem insertData_bounded {trie : Trie} {matchs : List CString} {line : CString}
    (h : ∀ m ∈ matchs, 0 ∉ m ∧ m.length < lineMax) (hline : 0 ∉ line)
    (ht : ∃ l, NulFree l ∧ (∀ r ∈ l, r.1.length < lineMax) ∧ trie = insertAll trieNew l) :
    ∃ l, NulFree l ∧ (∀ r ∈ l, r.1.length < lineMax) ∧ insertData trie matchs line = insertAll trieNew l := by
  rw [insertData]
  cases hvalue : strchr line (chr '=') with
  | none => exact ht
  | some value =>
    have hbehind : value <:+ line := ⟨_,(strchr_eq_some hvalue).1.symm⟩
    have hsuffix : 0 ∉ value.drop 1 := fun hmem => hline (hbehind.subset ((List.drop_suffix 1 value).subset hmem))
    have hkey : 0 ∉ line.take (line.length-value.length) := fun hmem => hline ((List.take_prefix _ _).subset hmem)
    simp only
    by_cases hempty : line.take (line.length-value.length) = [] ∨ value.drop 1 = []
    · rw [if_pos hempty]
      exact ht
    · rw [if_neg hempty]
      obtain ⟨l,hnul,hlen,rfl⟩ := ht
      refine ⟨l ++ matchs.map fun m => (m,line.take (line.length-value.length),value.drop 1),?_,?_,?_⟩
      · intro r hr
        rcases List.mem_append.mp hr with hr | hr
        · exact hnul r hr
        · obtain ⟨m,hm,rfl⟩ := List.mem_map.mp hr
          exact ⟨(h m hm).1,hkey,hsuffix⟩
      · intro r hr
        rcases List.mem_append.mp hr with hr | hr
        · exact hlen r hr
        · obtain ⟨m,hm,rfl⟩ := List.mem_map.mp hr
          exact (h m hm).2
      · rw [insertAll_append]
        simp only [insertAll,List.foldl_map]

theorem importStripped_bounded {s : Import} (h : s.Bounded) {line : CString} (hline : 0 ∉ line ∧ line.length < lineMax) :
    (importStripped s line).Bounded := by
  have hmore : ∀ m ∈ s.matchList ++ [line], 0 ∉ m ∧ m.length < lineMax := by
    intro m hm
    rcases List.mem_append.mp hm with hm | hm
    · exact h.matchs m hm
    · rw [List.mem_singleton.mp hm]
      exact hline
  have hnone : ∀ m ∈ ([] : List CString), 0 ∉ m ∧ m.length < lineMax := fun m hm => absurd hm List.not_mem_nil
  have hdata := insertData_bounded h.matchs hline.1 h.trie
  rw [importStripped]
  cases s.state with
  | hwNone =>
    simp only
    split_ifs
    · exact h
    · exact h
    · exact ⟨hmore,h.trie⟩
  | hwMatch =>
    simp only
    split_ifs
    · exact ⟨hnone,h.trie⟩
    · exact ⟨hmore,h.trie⟩
    · exact ⟨h.matchs,hdata⟩
  | hwData =>
    simp only
    split_ifs
    · exact ⟨hnone,h.trie⟩
    · exact ⟨hnone,h.trie⟩
    · exact ⟨h.matchs,hdata⟩

theorem stripLine_prefix (line : CString) : stripLine line <+: line :=
  (List.rdropWhile_prefix isspace (l := line.takeWhile (· ≠ chr '#'))).trans (List.takeWhile_prefix _)

theorem importLoop_bounded {s : Import} (h : s.Bounded) (fuel : ℕ) (content : List UInt8) :
    (importLoop fuel content s).Bounded := by
  induction fuel generalizing content s with
  | zero => exact h
  | succ fuel ih =>
    rw [importLoop]
    cases hline : fgets lineMax content with
    | none => exact h
    | some r =>
      obtain ⟨line,rest⟩ := r
      have hstrip := stripLine_prefix line
      have hbound : 0 ∉ stripLine line ∧ (stripLine line).length < lineMax :=
        ⟨fun hmem => Rules.fgets_nul hline (hstrip.subset hmem),
          Nat.lt_succ_of_le (hstrip.length_le.trans (Rules.fgets_length (n := 2047) hline))⟩
      refine ih ?_ rest
      rw [importLine]
      by_cases hcomment : charAt line 0 = chr '#'
      · rw [if_pos hcomment]
        exact h
      · rw [if_neg hcomment]
        exact importStripped_bounded h hbound

theorem importFiles_bounded (files : List (List UInt8)) :
    ∃ l, NulFree l ∧ (∀ r ∈ l, r.1.length < lineMax) ∧ files.foldl importFile trieNew = insertAll trieNew l := by
  induction files using List.reverseRecOn with
  | nil => exact ⟨[],fun r hr => absurd hr List.not_mem_nil,fun r hr => absurd hr List.not_mem_nil,rfl⟩
  | append_singleton files content ih =>
    rw [List.foldl_append,List.foldl_cons,List.foldl_nil]
    have hstart : Import.Bounded { trie := files.foldl importFile trieNew } :=
      ⟨fun m hm => absurd hm List.not_mem_nil,ih⟩
    exact (importLoop_bounded hstart content.length content).trie

theorem root_insertAll {l : List Insertion} (hl : NulFree l) : (insertAll trieNew l).tree.data.1 = [] := by
  rw [(insertAll_spec valid_trieNew hl).2,tree_trieNew]
  refine insertStrings_invariant (P := fun t => t.data.1 = []) rfl ?_
  rintro ⟨pattern,entry⟩ _ t t' hinserted ht
  have hsplit : ∀ {p : ℕ} {pre : CString} {v : List (CString × CString)} {ch : List (UInt8 × StringTree)},
      split [] p t = .node (pre,v) ch → pre = [] := by
    intro p pre v ch hnode
    have hdata : (split [] p t).data.1 = t.data.1.take p := data_split p t
    rw [hnode,ht,List.take_nil] at hdata
    exact hdata
  cases hinserted with
  | here hnode => exact hsplit hnode
  | new hnode _ => exact hsplit hnode
  | child hnode _ _ => exact hsplit hnode

end Import

/-- The index of the files, stored in a file of its own. -/
def storedIndex (version : ℕ) (files : List (List UInt8)) : List UInt8 :=
  trieStore version (files.foldl importFile trieNew)

/-- Every `linebuf_add` succeeds, `linebuf_get` has a string, and the assertion of `linebuf_rem` holds. -/
def BufferSuffices (fnmatch : CString → CString → Bool) (map : List UInt8) (search : CString) : Prop :=
  ∃ N, ∀ fuel, N ≤ fuel → ∃ st, checkLookup fnmatch fuel map search = .ok st

theorem checkLookup_outcome (files : List (List UInt8)) {version : ℕ} (hsmall : (storedIndex version files).length < 2^64)
    (fnmatch : CString → CString → Bool) (search : CString) :
    ∃ N, ∀ fuel, N ≤ fuel → Outcome (Overlong (files.foldl importFile trieNew).tree) {}
      (checkLookup fnmatch fuel (storedIndex version files) search) := by
  obtain ⟨l,hl,hlen,htrie⟩ := importFiles_bounded files
  rw [storedIndex,htrie] at hsmall ⊢
  have hwithin : Within (lineMax-1) (insertAll trieNew l).tree :=
    within_insertAll hl fun r hr => Nat.le_pred_of_lt (hlen r hr)
  obtain ⟨N,hN⟩ := exists_rootSearch fnmatch (ordered_insertAll hl) (root_insertAll hl) hwithin
  refine ⟨N,fun fuel hfuel => ?_⟩
  rw [checkLookup,(holds_trieStore hsmall).2.2,SearchMode.orStop_some,pure_bind,
    (simulates_file _).trieSearchF _ fuel (rep_trieStore hl hsmall)]
  exact hN fuel hfuel search

/-- The line buffer does what each lookup asks for if and only if no pattern has 2047 bytes and a glob
character at its begin. What goes wrong with such a pattern is `linebuf_get` only. -/
theorem linebuf_bounds (files : List (List UInt8)) (version : ℕ) (hsmall : (storedIndex version files).length < 2^64)
    (fnmatch : CString → CString → Bool) (search : CString) :
    (BufferSuffices fnmatch (storedIndex version files) search ↔ ¬Overlong (files.foldl importFile trieNew).tree) ∧
    ∃ N, ∀ fuel, N ≤ fuel →
      (∃ st, checkLookup fnmatch fuel (storedIndex version files) search = .ok st ∧
        hwdbLookup fnmatch fuel (storedIndex version files) search = some st.props) ∨
      checkLookup fnmatch fuel (storedIndex version files) search = .error .get := by
  obtain ⟨N,hN⟩ := checkLookup_outcome files hsmall fnmatch search
  refine ⟨⟨?_,?_⟩,N,?_⟩
  · rintro ⟨M,hM⟩ hlong
    obtain ⟨st,hok⟩ := hM (N+M) (Nat.le_add_left _ _)
    rcases hN (N+M) (Nat.le_add_right _ _) with ⟨-,hget⟩ | ⟨hno,-⟩
    · rw [hok] at hget
      cases hget
    · exact hno hlong
  · intro hno
    refine ⟨N,fun fuel hfuel => ?_⟩
    rcases hN fuel hfuel with ⟨hlong,-⟩ | ⟨-,adds,hok⟩
    · exact absurd hlong hno
    · exact ⟨_,hok⟩
  · intro fuel hfuel
    rcases hN fuel hfuel with ⟨-,hget⟩ | ⟨-,adds,hok⟩
    · exact Or.inr hget
    · exact Or.inl ⟨_,hok,checkLookup_ok hok⟩

theorem linebuf_bounds_usb :
    BufferSuffices simpleFnmatch (storedIndex 220 [str "usb:v04F2*\n NAME=x\n"]) (str "usb:v04F2p0402") ↔
      ¬Overlong (importFile trieNew (str "usb:v04F2*\n NAME=x\n")).tree :=
  (linebuf_bounds [str "usb:v04F2*\n NAME=x\n"] 220 (by decide +kernel) simpleFnmatch (str "usb:v04F2p0402")).1

def longLine : CString := chr '*'::List.replicate 2046 (chr 'a')

theorem importFile_longLine : importFile trieNew (longLine ++ str " K=v\n") = insertAll trieNew [(longLine,str " K",str "v")] := by
  have hfirst : fgets lineMax (longLine ++ str " K=v\n") = some (longLine,str " K=v\n") := by decide +kernel
  have hstrip : stripLine longLine = longLine := by decide +kernel
  have hmatch : importLine { trie := trieNew } longLine = ⟨.hwMatch,[longLine],trieNew⟩ := by
    rw [importLine,if_neg (by decide),hstrip,importStripped]
    rfl
  have hlen : (longLine ++ str " K=v\n").length = 2050+2 := by decide +kernel
  rw [importFile,hlen,importLoop,hfirst]
  simp only [hmatch]
  rfl

/-- The lookup of any string passes a null pointer on. -/
theorem linebuf_get_null : ¬∀ (files : List (List UInt8)) (version : ℕ), (storedIndex version files).length < 2^64 →
    ∀ fnmatch search, BufferSuffices fnmatch (storedIndex version files) search := by
  intro hall
  have hsmall : (storedIndex 220 [longLine ++ str " K=v\n"]).length < 2^64 := by decide +kernel
  have hlong : Overlong ([longLine ++ str " K=v\n"].foldl importFile trieNew).tree := by
    refine ⟨longLine,by decide +kernel,by decide,?_⟩
    have hmem := (mem_find_insertAll (l := [(longLine,str " K",str "v")]) (by decide +kernel) longLine (str " K") (str "v")).mpr
      (by decide +kernel)
    rw [List.foldl_cons,List.foldl_nil,importFile_longLine]
    exact List.ne_nil_of_mem hmem
  obtain ⟨N,hN⟩ := checkLookup_outcome _ hsmall simpleFnmatch []
  obtain ⟨M,hM⟩ := hall _ _ hsmall simpleFnmatch []
  obtain ⟨st,hok⟩ := hM (N+M) (Nat.le_add_left _ _)
  rcases hN (N+M) (Nat.le_add_right _ _) with ⟨-,hget⟩ | ⟨hno,-⟩
  · rw [hok] at hget
    cases hget
  · exact hno hlong

end Hwdb
end Udev
