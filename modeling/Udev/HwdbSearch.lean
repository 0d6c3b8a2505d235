import Udev.HwdbFile
import Udev.UniqueList

/-! The lookup in the hardware database: the lookup string is followed literally through the
index, and from every place where a pattern goes on with a glob character the patterns below
are matched as a whole. The nodes are read through accessors, so that the lookup in a file and
the lookup in a tree are one definition. -/
namespace Udev
namespace Hwdb

open RadixTree CString Text

structure NodeReader (ν : Type) where
  named : ν → Option Bool
  pre : ν → Option CString
  children : ν → Option (List (UInt8 × ν))
  values : ν → Option (List (CString × CString))

def fileReader (map : List UInt8) : NodeReader ℕ where
  named := nodeNamed map
  pre := nodePrefix map
  children := nodeChildren map
  values := nodeValues map

def treeReader : NodeReader StringTree where
  named _ := some true
  pre t := some t.data.1
  children t := some t.children
  values t := some t.data.2

/-- `struct linebuf` of the search and the properties so far. -/
structure Search where
  buf : CString := []
  props : UdevList := []

def lineMax : ℕ := 2048

/-- `linebuf_add`, which adds nothing when the buffer is full; `linebuf_add_char` for one. -/
def Search.linebufAdd (st : Search) (s : CString) : Search :=
  if st.buf.length+s.length ≥ lineMax then st else { st with buf := st.buf ++ s }

def Search.linebufRem (count : ℕ) (st : Search) : Option Search :=
  if st.buf.length ≥ count then some { st with buf := st.buf.take (st.buf.length-count) } else none

def Search.linebufGet (st : Search) : Option CString := if st.buf.length+1 ≥ lineMax then none else some st.buf

def hwdbAddProperty (props : UdevList) (e : CString × CString) : UdevList :=
  if charAt e.1 0 ≠ chr ' ' then props else props.add (e.1.drop 1) (some e.2)

def Search.addValues (st : Search) (values : List (CString × CString)) : Search :=
  { st with props := values.foldl hwdbAddProperty st.props }

def isGlob (c : UInt8) : Bool := c = chr '*' || c = chr '?' || c = chr '['

/-- How the loop over the prefix of a node ends, and after how many characters. -/
inductive PrefixEnd
  | glob (p : ℕ) | differs | matched (p : ℕ)

def walkPrefix : CString → CString → ℕ → PrefixEnd
  | [], _, p => .matched p
  | c::cs, search, p =>
    if isGlob c then .glob p
    else if sameChar c (charAt search 0) then walkPrefix cs (search.drop 1) (p+1) else .differs

inductive Fault
  | fuel | file | add | get | rem
  deriving DecidableEq

/-- What a search does with a line buffer that is full, and how it stops. -/
structure SearchMode (m : Type → Type) where
  linebufAdd : CString → Search → m Search
  stop {α : Type} : Fault → m α

/-- `node_lookup_f`. -/
def lookupChild {ν : Type} (A : NodeReader ν) (node : ν) (c : UInt8) : Option (Option ν) :=
  (A.children node).map (SortedMap.get · c)

namespace SearchMode

variable {m : Type → Type} [Monad m] (M : SearchMode m)

def orStop {α : Type} (e : Fault) : Option α → m α
  | none => M.stop e
  | some a => pure a

theorem orStop_some {α : Type} (e : Fault) (a : α) : M.orStop e (some a) = pure a := rfl

variable {ν : Type} (A : NodeReader ν) (fnmatch : CString → CString → Bool)

def addMatching (search : CString) (values : List (CString × CString)) (st : Search) : m Search :=
  if values = [] then pure st
  else do
    let pattern ← M.orStop .get st.linebufGet
    pure (if fnmatch pattern search then st.addValues values else st)

def trieFnmatchF (search : CString) : ℕ → ν → ℕ → Search → m Search
  | 0, _, _, _ => M.stop .fuel
  | fuel+1, node, p, st => do
    let pre ← M.orStop .file (A.pre node)
    let children ← M.orStop .file (A.children node)
    let values ← M.orStop .file (A.values node)
    let st ← M.linebufAdd (pre.drop p) st
    let st ← children.foldlM (fun st e => do
      let st ← M.linebufAdd [e.1] st
      let st ← trieFnmatchF search fuel e.2 0 st
      M.orStop .rem (st.linebufRem 1)) st
    let st ← M.addMatching fnmatch search values st
    M.orStop .rem (st.linebufRem (pre.drop p).length)

def globChild (search : CString) (fuel : ℕ) (node : ν) (c : UInt8) (st : Search) : m Search := do
  match ← M.orStop .file (lookupChild A node c) with
  | none => pure st
  | some child =>
    let st ← M.linebufAdd [c] st
    let st ← M.trieFnmatchF A fnmatch search fuel child 0 st
    M.orStop .rem (st.linebufRem 1)

def globChildren (search : CString) (fuel : ℕ) (node : ν) (st : Search) : m Search := do
  let st ← M.globChild A fnmatch search fuel node (chr '*') st
  let st ← M.globChild A fnmatch search fuel node (chr '?') st
  M.globChild A fnmatch search fuel node (chr '[') st

def searchNext (next : ν → Search → m Search) (node : ν) (search : CString) (st : Search) : m Search := do
  if search = [] then
    let values ← M.orStop .file (A.values node)
    pure (st.addValues values)
  else
    match ← M.orStop .file (lookupChild A node (charAt search 0)) with
    | none => pure st
    | some child => next child st

def trieSearchF : ℕ → ν → CString → Search → m Search
  | 0, _, _, _ => M.stop .fuel
  | fuel+1, node, search, st => do
    let named ← M.orStop .file (A.named node)
    let pre ← M.orStop .file (A.pre node)
    match if named then walkPrefix pre search 0 else .matched 0 with
    | .glob p => M.trieFnmatchF A fnmatch (search.drop p) fuel node p st
    | .differs => pure st
    | .matched p =>
      let st ← M.globChildren A fnmatch (search.drop p) fuel node st
      M.searchNext A (fun child => trieSearchF fuel child (search.drop (p+1))) node (search.drop p) st

def skipping : SearchMode Option where
  linebufAdd s st := some (st.linebufAdd s)
  stop _ := none

theorem skipping_orStop {α : Type} (e : Fault) (x : Option α) : skipping.orStop e x = x := by
  cases x with
  | none => rfl
  | some a => rfl

theorem skipping_linebufAdd (s : CString) (st : Search) : skipping.linebufAdd s st = some (st.linebufAdd s) := rfl

end SearchMode

section Search

variable {ν : Type} (A : NodeReader ν) (fnmatch : CString → CString → Bool)

def addMatching (search : CString) (values : List (CString × CString)) (st : Search) : Option Search :=
  SearchMode.skipping.addMatching fnmatch search values st

def trieFnmatchF (search : CString) (fuel : ℕ) (node : ν) (p : ℕ) (st : Search) : Option Search :=
  SearchMode.skipping.trieFnmatchF A fnmatch search fuel node p st

def globChild (search : CString) (fuel : ℕ) (node : ν) (c : UInt8) (st : Search) : Option Search :=
  SearchMode.skipping.globChild A fnmatch search fuel node c st

def trieSearchF (fuel : ℕ) (node : ν) (search : CString) (st : Search) : Option Search :=
  SearchMode.skipping.trieSearchF A fnmatch fuel node search st

theorem addMatching_eq (search : CString) (values : List (CString × CString)) (st : Search) :
    addMatching fnmatch search values st =
      if values = [] then some st
      else st.linebufGet.map fun pattern => if fnmatch pattern search then st.addValues values else st := by
  rw [addMatching,SearchMode.addMatching,SearchMode.skipping_orStop]
  by_cases hnil : values = []
  · rw [if_pos hnil,if_pos hnil]
    rfl
  · rw [if_neg hnil,if_neg hnil]
    exact Option.map_eq_bind.symm

theorem trieFnmatchF_succ (search : CString) (fuel : ℕ) (node : ν) (p : ℕ) (st : Search) :
    trieFnmatchF A fnmatch search (fuel+1) node p st =
      (A.pre node).bind fun pre => (A.children node).bind fun children => (A.values node).bind fun values =>
        ((children.foldlM (fun st e => (trieFnmatchF A fnmatch search fuel e.2 0 (st.linebufAdd [e.1])).bind (Search.linebufRem 1))
          (st.linebufAdd (pre.drop p))).bind (addMatching fnmatch search values)).bind
            (Search.linebufRem (pre.drop p).length) := by
  simp only [trieFnmatchF,SearchMode.trieFnmatchF,SearchMode.skipping_orStop,SearchMode.skipping_linebufAdd,Option.bind_eq_bind,
    Option.bind_some,Option.bind_assoc,addMatching]

theorem globChild_eq (search : CString) (fuel : ℕ) (node : ν) (c : UInt8) (st : Search) :
    globChild A fnmatch search fuel node c st =
      (lookupChild A node c).bind fun
        | none => some st
        | some child => (trieFnmatchF A fnmatch search fuel child 0 (st.linebufAdd [c])).bind (Search.linebufRem 1) := by
  rw [globChild,SearchMode.globChild,SearchMode.skipping_orStop]
  refine Option.bind_congr fun child _ => ?_
  cases child with
  | none => rfl
  | some child => simp only [SearchMode.skipping_orStop,SearchMode.skipping_linebufAdd,Option.bind_eq_bind,Option.bind_some,trieFnmatchF]

theorem trieSearchF_succ (fuel : ℕ) (node : ν) (search : CString) (st : Search) :
    trieSearchF A fnmatch (fuel+1) node search st =
      (A.named node).bind fun named => (A.pre node).bind fun pre =>
        match if named then walkPrefix pre search 0 else .matched 0 with
        | .glob p => trieFnmatchF A fnmatch (search.drop p) fuel node p st
        | .differs => some st
        | .matched p =>
          (((globChild A fnmatch (search.drop p) fuel node (chr '*') st).bind
            (globChild A fnmatch (search.drop p) fuel node (chr '?'))).bind
            (globChild A fnmatch (search.drop p) fuel node (chr '['))).bind fun st =>
              if search.drop p = [] then (A.values node).map st.addValues
              else
                (lookupChild A node (charAt (search.drop p) 0)).bind fun
                  | none => some st
                  | some child => trieSearchF A fnmatch fuel child (search.drop (p+1)) st := by
  rw [trieSearchF,SearchMode.trieSearchF,SearchMode.skipping_orStop,SearchMode.skipping_orStop]
  refine Option.bind_congr fun named _ => Option.bind_congr fun pre _ => ?_
  cases (if named then walkPrefix pre search 0 else .matched 0) with
  | glob p => rfl
  | differs => rfl
  | matched p =>
    simp only [SearchMode.globChildren,SearchMode.searchNext,SearchMode.skipping_orStop,Option.bind_eq_bind,
      Option.bind_assoc,globChild,Option.map_eq_bind]
    rfl

end Search

section Fuel

theorem bind_mono {γ δ : Type} {x y : Option γ} {f g : γ → Option δ} {b : δ} (hx : ∀ a, x = some a → y = some a)
    (hf : ∀ a, f a = some b → g a = some b) (h : x.bind f = some b) : y.bind g = some b := by
  obtain ⟨a,ha,hb⟩ := Option.bind_eq_some_iff.mp h
  rw [hx a ha,Option.bind_some,hf a hb]

theorem foldlM_mono {γ : Type} {f g : Search → γ → Option Search} (h : ∀ st e st', f st e = some st' → g st e = some st')
    (l : List γ) {st st' : Search} (hf : l.foldlM f st = some st') : l.foldlM g st = some st' := by
  induction l generalizing st with
  | nil => exact hf
  | cons e l ih =>
    rw [List.foldlM_cons] at hf ⊢
    exact bind_mono (h st e) (fun _ => ih) hf

variable {ν : Type} {A : NodeReader ν} {fnmatch : CString → CString → Bool} {fuel fuel' : ℕ} {node : ν}
  {st st' : Search}

theorem trieFnmatchF_mono {search : CString} {p : ℕ} (hle : fuel ≤ fuel')
    (h : trieFnmatchF A fnmatch search fuel node p st = some st') :
    trieFnmatchF A fnmatch search fuel' node p st = some st' := by
  induction fuel generalizing fuel' node p st st' with
  | zero => cases h
  | succ fuel ih =>
    obtain ⟨fuel',rfl⟩ : ∃ m, fuel' = m+1 := ⟨fuel'-1,by omega⟩
    rw [trieFnmatchF_succ] at h ⊢
    refine bind_mono (fun _ => id) (fun pre => bind_mono (fun _ => id) fun children =>
      bind_mono (fun _ => id) fun values => bind_mono (fun st₁ => bind_mono (fun st₂ => ?_) fun _ => id) fun _ => id) h
    refine foldlM_mono ?_ children
    intro st e st'
    exact bind_mono (fun _ => ih (by omega)) fun _ => id

theorem globChild_mono {search : CString} {c : UInt8} (hle : fuel ≤ fuel')
    (h : globChild A fnmatch search fuel node c st = some st') :
    globChild A fnmatch search fuel' node c st = some st' := by
  rw [globChild_eq] at h ⊢
  refine bind_mono (fun _ => id) ?_ h
  intro child
  cases child with
  | none => exact id
  | some child => exact bind_mono (fun _ => trieFnmatchF_mono hle) fun _ => id

theorem trieSearchF_mono {search : CString} (hle : fuel ≤ fuel')
    (h : trieSearchF A fnmatch fuel node search st = some st') :
    trieSearchF A fnmatch fuel' node search st = some st' := by
  induction fuel generalizing fuel' node search st st' with
  | zero => cases h
  | succ fuel ih =>
    obtain ⟨fuel',rfl⟩ : ∃ m, fuel' = m+1 := ⟨fuel'-1,by omega⟩
    have hle' : fuel ≤ fuel' := by omega
    rw [trieSearchF_succ] at h ⊢
    refine bind_mono (fun _ => id) (fun named => bind_mono (fun _ => id) ?_) h
    intro pre
    cases (if named then walkPrefix pre search 0 else .matched 0) with
    | glob p => exact trieFnmatchF_mono hle'
    | differs => exact id
    | matched p =>
      refine bind_mono (fun _ => bind_mono (fun _ => bind_mono (fun _ => globChild_mono hle') ?_) ?_) ?_
      · exact fun _ => globChild_mono hle'
      · exact fun _ => globChild_mono hle'
      · intro st
        split_ifs
        · exact id
        · refine bind_mono (fun _ => id) ?_
          intro child
          cases child with
          | none => exact id
          | some child => exact ih hle'

end Fuel

/-- The properties for a lookup string, as `udev_hwdb_get_properties_list_entry` finds them. -/
def hwdbLookup (fnmatch : CString → CString → Bool) (fuel : ℕ) (map : List UInt8) (search : CString) :
    Option UdevList :=
  (nodesRootOff map).bind fun root => (trieSearchF (fileReader map) fnmatch fuel root search {}).map (·.props)

structure Simulates {ν μ : Type} (A : NodeReader ν) (B : NodeReader μ) (R : ν → μ → Prop) : Prop where
  named : ∀ a b, R a b → A.named a = B.named b
  pre : ∀ a b, R a b → A.pre a = B.pre b
  values : ∀ a b, R a b → A.values a = B.values b
  children : ∀ a b, R a b → ∃ es ch, A.children a = some es ∧ B.children b = some ch ∧ es.length = ch.length ∧
    ∀ p ∈ es.zip ch, p.1.1 = p.2.1 ∧ R p.1.2 p.2.2

section Simulates

variable {m : Type → Type} [Monad m] {ν μ : Type} {A : NodeReader ν} {B : NodeReader μ} {R : ν → μ → Prop}
  (M : SearchMode m) {fnmatch : CString → CString → Bool}

theorem foldlM_zip {f : Search → UInt8 × ν → m Search} {g : Search → UInt8 × μ → m Search}
    {es : List (UInt8 × ν)} {ch : List (UInt8 × μ)} (hlen : es.length = ch.length)
    (h : ∀ p ∈ es.zip ch, ∀ st, f st p.1 = g st p.2) (st : Search) : es.foldlM f st = ch.foldlM g st := by
  induction es generalizing ch st with
  | nil =>
    rw [List.length_eq_zero_iff.mp hlen.symm]
    rfl
  | cons e es ih =>
    cases ch with
    | nil => cases hlen
    | cons x ch =>
      rw [List.foldlM_cons,List.foldlM_cons,h (e,x) List.mem_cons_self]
      refine bind_congr fun st => ?_
      exact ih (Nat.succ.inj hlen) (fun p hp => h p (List.mem_cons_of_mem _ hp)) st

theorem Simulates.lookupChild (hsim : Simulates A B R) {a : ν} {b : μ} (hab : R a b) (c : UInt8) :
    Hwdb.lookupChild A a c = some none ∧ Hwdb.lookupChild B b c = some none ∨
      ∃ x y, Hwdb.lookupChild A a c = some (some x) ∧ Hwdb.lookupChild B b c = some (some y) ∧ R x y := by
  obtain ⟨es,ch,hes,hch,hlen,hzip⟩ := hsim.children a b hab
  rw [Hwdb.lookupChild,Hwdb.lookupChild,hes,hch,Option.map_some,Option.map_some]
  rcases SortedMap.get_zip hlen (fun p hp => (hzip p hp).1) c with ⟨hnone,hnone'⟩ | ⟨p,hp,hsome,hsome'⟩
  · exact Or.inl ⟨by rw [hnone],by rw [hnone']⟩
  · exact Or.inr ⟨_,_,by rw [hsome],by rw [hsome'],(hzip p hp).2⟩

variable [LawfulMonad m]

theorem Simulates.trieFnmatchF (hsim : Simulates A B R) (search : CString) (fuel : ℕ) {a : ν} {b : μ} (hab : R a b)
    (p : ℕ) (st : Search) :
    M.trieFnmatchF A fnmatch search fuel a p st = M.trieFnmatchF B fnmatch search fuel b p st := by
  induction fuel generalizing a b p st with
  | zero => rfl
  | succ fuel ih =>
    obtain ⟨es,ch,hes,hch,hlen,hzip⟩ := hsim.children a b hab
    have hloop : ∀ st : Search,
        es.foldlM (fun st e => M.linebufAdd [e.1] st >>= fun st =>
          M.trieFnmatchF A fnmatch search fuel e.2 0 st >>= fun st => M.orStop .rem (st.linebufRem 1)) st =
        ch.foldlM (fun st e => M.linebufAdd [e.1] st >>= fun st =>
          M.trieFnmatchF B fnmatch search fuel e.2 0 st >>= fun st => M.orStop .rem (st.linebufRem 1)) st := by
      refine foldlM_zip hlen ?_
      intro q hq st
      rw [(hzip q hq).1,funext (ih (hzip q hq).2 0)]
    rw [SearchMode.trieFnmatchF,SearchMode.trieFnmatchF,hsim.pre a b hab,hsim.values a b hab,hes,hch]
    simp only [SearchMode.orStop_some,pure_bind,hloop]

theorem Simulates.globChild (hsim : Simulates A B R) (search : CString) (fuel : ℕ) {a : ν} {b : μ} (hab : R a b)
    (c : UInt8) (st : Search) :
    M.globChild A fnmatch search fuel a c st = M.globChild B fnmatch search fuel b c st := by
  rw [SearchMode.globChild,SearchMode.globChild]
  rcases hsim.lookupChild hab c with ⟨hnone,hnone'⟩ | ⟨x,y,hx,hy,hxy⟩
  · rw [hnone,hnone']
    simp only [SearchMode.orStop_some,pure_bind]
  · rw [hx,hy]
    simp only [SearchMode.orStop_some,pure_bind,funext (hsim.trieFnmatchF M search fuel hxy 0)]

theorem Simulates.globChildren (hsim : Simulates A B R) (search : CString) (fuel : ℕ) {a : ν} {b : μ} (hab : R a b)
    (st : Search) :
    M.globChildren A fnmatch search fuel a st = M.globChildren B fnmatch search fuel b st := by
  have hglob : ∀ c, M.globChild A fnmatch search fuel a c = M.globChild B fnmatch search fuel b c :=
    fun c => funext (hsim.globChild M search fuel hab c)
  simp only [SearchMode.globChildren,hglob]

theorem Simulates.trieSearchF (hsim : Simulates A B R) (fuel : ℕ) {a : ν} {b : μ} (hab : R a b) (search : CString)
    (st : Search) :
    M.trieSearchF A fnmatch fuel a search st = M.trieSearchF B fnmatch fuel b search st := by
  induction fuel generalizing a b search st with
  | zero => rfl
  | succ fuel ih =>
    rw [SearchMode.trieSearchF,SearchMode.trieSearchF,hsim.named a b hab,hsim.pre a b hab]
    refine bind_congr fun named => bind_congr fun pre => ?_
    cases (if named then walkPrefix pre search 0 else .matched 0) with
    | glob p => exact hsim.trieFnmatchF M _ fuel hab p st
    | differs => rfl
    | matched p =>
      simp only [hsim.globChildren M _ fuel hab]
      refine bind_congr fun st => ?_
      rw [SearchMode.searchNext,SearchMode.searchNext,hsim.values a b hab]
      by_cases hnil : search.drop p = []
      · rw [if_pos hnil,if_pos hnil]
      · rw [if_neg hnil,if_neg hnil]
        rcases hsim.lookupChild hab (charAt (search.drop p) 0) with ⟨hnone,hnone'⟩ | ⟨x,y,hx,hy,hxy⟩
        · rw [hnone,hnone']
          simp only [SearchMode.orStop_some,pure_bind]
        · rw [hx,hy]
          simp only [SearchMode.orStop_some,pure_bind]
          exact ih hxy _ st

end Simulates

theorem simulates_file (map : List UInt8) : Simulates (fileReader map) treeReader (Rep map) where
  named a b h := by
    cases h with
    | node hnamed _ _ _ _ _ _ => exact hnamed
  pre a b h := by
    cases h with
    | node _ hlead _ _ _ _ _ => exact hlead
  values a b h := by
    cases h with
    | node _ _ hvalues _ _ _ _ => exact hvalues
  children a b h := by
    cases h with
    | node _ _ _ hes hlen hkey hch => exact ⟨_,_,hes,rfl,hlen,fun p hp => ⟨hkey p hp,hch p hp⟩⟩

theorem hwdbLookup_trieStore {fnmatch : CString → CString → Bool} {version : ℕ} {l : List Insertion} (hl : NulFree l)
    (hsmall : (trieStore version (insertAll trieNew l)).length < 2^64) (fuel : ℕ) (search : CString) :
    hwdbLookup fnmatch fuel (trieStore version (insertAll trieNew l)) search =
      (trieSearchF treeReader fnmatch fuel (insertAll trieNew l).tree search {}).map (·.props) := by
  rw [hwdbLookup,(holds_trieStore hsmall).2.2,Option.bind_some,
    trieSearchF,(simulates_file _).trieSearchF _ fuel (rep_trieStore hl hsmall)]
  rfl

end Hwdb
end Udev
