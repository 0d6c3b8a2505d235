import Udev.DevPath
import Udev.Memory

/-! The target of a link as `path_relative` writes it, and where it leads from a link with repeated
slashes. The dots are counted from the slashes, and a lookup counts the components. -/
namespace Udev
namespace DevPath

open CString Memory

structure RelativeState where
  path : Cursor
  size : ℕ

def RelativeState.put (r : RelativeState) (c : UInt8) : RelativeState := ⟨r.path.put c,r.size-1⟩

def relativeDots : CString → RelativeState → Bool × RelativeState
  | [], r => (true,r)
  | c::slink, r =>
    if c = chr '/' then
      if r.size < 4 then (false,r)
      else relativeDots slink (((r.put (chr '.')).put (chr '.')).put (chr '/'))
    else relativeDots slink r

def relativeCopy : CString → RelativeState → Bool × RelativeState
  | [], r => (true,r)
  | c::p, r => if r.size < 2 then (false,r) else relativeCopy p (r.put c)

/-- `path_relative` on its buffer, with what was in it. -/
def pathRelativeRun (mem : Memory) (node slink : CString) (size : ℕ) : ℕ × Cursor :=
  let start : RelativeState := ⟨Cursor.start mem,size⟩
  if node = [] ∨ slink = [] then (0,start.path)
  else
    let r := relativeScan node slink node
    let dots := if charAt node 0 = charAt slink 0 then relativeDots r.2 start else (true,start)
    let p := if charAt node 0 = charAt slink 0 then r.1.drop 1 else r.1
    if dots.1 = false then (0,dots.2.path)
    else
      let copy := relativeCopy p dots.2
      if copy.1 = false then (0,copy.2.path) else (size-copy.2.size,copy.2.path.put 0)

/-- An absolute path without repeated slashes. -/
def NodePath (node : CString) : Prop :=
  ∃ cs c, (∀ x ∈ cs, Component x) ∧ (c = [] ∨ Component c) ∧ node = absPath (cs ++ [c])

/-- An absolute path that may have repeated slashes. -/
def LinkPath (slink : CString) : Prop :=
  ∃ ds, ds ≠ [] ∧ (∀ d ∈ ds, d = [] ∨ Component d) ∧ slink = absPath ds

/-- The result is 0, or a terminated target inside of the buffer that leads to the node. -/
def TargetRight (node slink : CString) (size : ℕ) (r : ℕ × Cursor) : Prop :=
  r.1 = 0 ∨ (∀ i ∈ r.2.writes, i < size) ∧ r.2.mem r.1 = 0 ∧ (r.2.mem.text size).length = r.1 ∧
    resolve slink (r.2.mem.text size) = lookup node

/-- Three bytes for each slash of the link behind the common directory, and the node behind it. -/
def targetLength (node slink : CString) : ℕ :=
  3*(slink.drop (commonDir node slink).length).count (chr '/')+(node.drop (commonDir node slink).length).length

/-- A part of the target is in the buffer, and the room is what it left. -/
structure HoldsTarget (mem : Memory) (r : RelativeState) (out : CString) (size : ℕ) : Prop where
  filled : r.path.Filled mem out
  room : r.size+out.length = size

theorem HoldsTarget.put {mem : Memory} {r : RelativeState} {out : CString} {size : ℕ} (h : HoldsTarget mem r out size)
    (c : UInt8) (hroom : 0 < r.size) : HoldsTarget mem (r.put c) (out ++ [c]) size := by
  have hsum := h.room
  constructor
  · exact h.filled.put c
  · rw [List.length_append,List.length_singleton]
    show r.size-1+(out.length+1) = size
    omega

abbrev dots (n : ℕ) : CString := (List.replicate n (str "../")).flatten

theorem length_dots (n : ℕ) : (dots n).length = 3*n := by
  induction n with
  | zero => rfl
  | succ n ih =>
    rw [dots,List.replicate_succ,List.flatten_cons,List.length_append,ih]
    show 3+3*n = 3*(n+1)
    omega

theorem relativeDots_fits (slink : CString) {mem : Memory} {r : RelativeState} {out : CString} {size : ℕ}
    (h : HoldsTarget mem r out size) (hfit : slink.count (chr '/') = 0 ∨ 3*slink.count (chr '/') < r.size) :
    ∃ r', relativeDots slink r = (true,r') ∧ HoldsTarget mem r' (out ++ dots (slink.count (chr '/'))) size := by
  induction slink generalizing r out with
  | nil =>
    refine ⟨r,rfl,?_⟩
    rw [List.count_nil,dots,List.replicate_zero,List.flatten_nil,List.append_nil]
    exact h
  | cons c slink ih =>
    rw [relativeDots]
    by_cases hc : c = chr '/'
    · rw [hc,List.count_cons_self] at hfit
      rw [if_pos hc,if_neg (by omega),hc,List.count_cons_self]
      have hone := h.put (chr '.') (by omega)
      have htwo := hone.put (chr '.') (by show 0 < r.size-1; omega)
      have hthree := htwo.put (chr '/') (by show 0 < r.size-1-1; omega)
      have hsize : (((r.put (chr '.')).put (chr '.')).put (chr '/')).size = r.size-3 := by
        show r.size-1-1-1 = r.size-3
        omega
      have hout : out ++ dots (slink.count (chr '/')+1) =
          out ++ [chr '.'] ++ [chr '.'] ++ [chr '/'] ++ dots (slink.count (chr '/')) := by
        rw [dots,List.replicate_succ,List.flatten_cons,List.append_assoc,List.append_assoc,List.append_assoc]
        rfl
      rw [hout]
      exact ih hthree (by rw [hsize]; omega)
    · rw [List.count_cons_of_ne hc] at hfit ⊢
      rw [if_neg hc]
      exact ih h hfit

theorem relativeDots_full (slink : CString) (r : RelativeState)
    (hfull : ¬(slink.count (chr '/') = 0 ∨ 3*slink.count (chr '/') < r.size)) : (relativeDots slink r).1 = false := by
  induction slink generalizing r with
  | nil => exact absurd (Or.inl List.count_nil) hfull
  | cons c slink ih =>
    rw [relativeDots]
    by_cases hc : c = chr '/'
    · rw [hc,List.count_cons_self] at hfull
      rw [if_pos hc]
      by_cases hsize : r.size < 4
      · rw [if_pos hsize]
      · rw [if_neg hsize]
        refine ih _ ?_
        show ¬(_ ∨ _ < r.size-1-1-1)
        omega
    · rw [List.count_cons_of_ne hc] at hfull
      rw [if_neg hc]
      exact ih r hfull

theorem relativeCopy_fits (p : CString) {mem : Memory} {r : RelativeState} {out : CString} {size : ℕ}
    (h : HoldsTarget mem r out size) (hfit : p.length = 0 ∨ p.length < r.size) :
    ∃ r', relativeCopy p r = (true,r') ∧ HoldsTarget mem r' (out ++ p) size := by
  induction p generalizing r out with
  | nil =>
    refine ⟨r,rfl,?_⟩
    rw [List.append_nil]
    exact h
  | cons c p ih =>
    rw [List.length_cons] at hfit
    have hsize : (r.put c).size = r.size-1 := rfl
    rw [relativeCopy,if_neg (by omega),← List.singleton_append,← List.append_assoc]
    exact ih (h.put c (by omega)) (by rw [hsize]; omega)

theorem relativeCopy_full (p : CString) (r : RelativeState) (hfull : ¬(p.length = 0 ∨ p.length < r.size)) :
    (relativeCopy p r).1 = false := by
  induction p generalizing r with
  | nil => exact absurd (Or.inl rfl) hfull
  | cons c p ih =>
    rw [List.length_cons] at hfull
    have hsize : (r.put c).size = r.size-1 := rfl
    rw [relativeCopy]
    by_cases hfew : r.size < 2
    · rw [if_pos hfew]
    · rw [if_neg hfew]
      exact ih _ (by rw [hsize]; omega)

theorem relativeScan_first {node slink : CString} (hnode : node ≠ []) (hfirst : charAt node 0 ≠ charAt slink 0)
    (hslink : slink ≠ []) : (relativeScan node slink node).1 = node := by
  obtain ⟨f,fs,rfl⟩ := List.exists_cons_of_ne_nil hnode
  obtain ⟨t,ts,rfl⟩ := List.exists_cons_of_ne_nil hslink
  have hne : f ≠ t := hfirst
  rw [relativeScan,if_neg hne]

def Wrote (size : ℕ) (r : ℕ × Cursor) : Option CString → Prop
  | none => r.1 = 0
  | some s => r.1 = s.length ∧ s.length < size ∧ r.2.mem.Holds s ∧ r.2.mem s.length = 0 ∧
      r.2.writes = List.range (s.length+1)

theorem wrote_target {mem : Memory} {r : RelativeState} {s : CString} {size : ℕ} (h : HoldsTarget mem r s size)
    (hlen : s.length < size) : Wrote size (size-r.size,r.path.put 0) (some s) := by
  have hroom := h.room
  constructor
  · show size-r.size = s.length
    omega
  · exact ⟨hlen,h.filled.terminate⟩

theorem relativeLoops_spec (mem : Memory) (up p : CString) (size : ℕ) :
    Wrote size
      (if (relativeDots up ⟨Cursor.start mem,size⟩).1 = false then (0,(relativeDots up ⟨Cursor.start mem,size⟩).2.path)
        else if (relativeCopy p (relativeDots up ⟨Cursor.start mem,size⟩).2).1 = false then
          (0,(relativeCopy p (relativeDots up ⟨Cursor.start mem,size⟩).2).2.path)
        else (size-(relativeCopy p (relativeDots up ⟨Cursor.start mem,size⟩).2).2.size,
          (relativeCopy p (relativeDots up ⟨Cursor.start mem,size⟩).2).2.path.put 0))
      (if dots (up.count (chr '/')) ++ p = [] ∨ (dots (up.count (chr '/')) ++ p).length ≥ size then none
        else some (dots (up.count (chr '/')) ++ p)) := by
  have hlen : (dots (up.count (chr '/')) ++ p).length = 3*up.count (chr '/')+p.length := by
    rw [List.length_append,length_dots]
  have hnil : dots (up.count (chr '/')) ++ p = [] ↔ 3*up.count (chr '/')+p.length = 0 := by
    rw [← hlen,List.length_eq_zero_iff]
  have hstart : HoldsTarget mem ⟨Cursor.start mem,size⟩ [] size := ⟨Cursor.filled_start mem,rfl⟩
  have hcond : (dots (up.count (chr '/')) ++ p = [] ∨ (dots (up.count (chr '/')) ++ p).length ≥ size) ↔
      3*up.count (chr '/')+p.length = 0 ∨ 3*up.count (chr '/')+p.length ≥ size := by
    rw [hnil,hlen]
  have hnone : ∀ r : ℕ × Cursor, r.1 = 0 →
      (3*up.count (chr '/')+p.length = 0 ∨ 3*up.count (chr '/')+p.length ≥ size) →
      Wrote size r (if dots (up.count (chr '/')) ++ p = [] ∨ (dots (up.count (chr '/')) ++ p).length ≥ size then none
        else some (dots (up.count (chr '/')) ++ p)) := by
    intro r hr hor
    rw [if_pos (hcond.mpr hor)]
    exact hr
  by_cases hup : up.count (chr '/') = 0 ∨ 3*up.count (chr '/') < size
  · obtain ⟨r,hr,hholds⟩ := relativeDots_fits up hstart hup
    have hroom := hholds.room
    rw [List.nil_append,length_dots] at hroom
    rw [hr,if_neg (fun h => Bool.noConfusion h)]
    by_cases hcopy : p.length = 0 ∨ p.length < r.size
    · obtain ⟨t,ht,htarget⟩ := relativeCopy_fits p hholds hcopy
      have hall := htarget.room
      rw [List.nil_append,hlen] at hall
      rw [List.nil_append] at htarget
      rw [ht,if_neg (fun h => Bool.noConfusion h)]
      by_cases hend : 3*up.count (chr '/')+p.length = 0 ∨ 3*up.count (chr '/')+p.length ≥ size
      · refine hnone _ ?_ hend
        show size-t.size = 0
        omega
      · rw [if_neg (mt hcond.mp hend)]
        exact wrote_target htarget (by rw [hlen]; omega)
    · rw [relativeCopy_full p r hcopy,if_pos rfl]
      exact hnone _ rfl (by omega)
  · rw [relativeDots_full up ⟨Cursor.start mem,size⟩ hup,if_pos rfl]
    have hfull : ¬(up.count (chr '/') = 0 ∨ 3*up.count (chr '/') < size) := hup
    exact hnone _ rfl (by omega)

/-- On its buffer, `path_relative` writes the target of the pure function. -/
theorem pathRelativeRun_spec (mem : Memory) (node slink : CString) (size : ℕ) :
    Wrote size (pathRelativeRun mem node slink size) (pathRelative node slink size) := by
  rw [pathRelative,pathRelativeRun]
  by_cases hempty : node = [] ∨ slink = []
  · rw [if_pos hempty,if_pos hempty]
    rfl
  obtain ⟨hnode,hslink⟩ := not_or.mp hempty
  rw [if_neg hempty,if_neg hempty]
  by_cases hfirst : charAt node 0 = charAt slink 0
  · simp only [if_pos hfirst]
    exact relativeLoops_spec mem _ _ size
  · simp only [if_neg hfirst,relativeScan_first hnode hfirst hslink]
    exact relativeLoops_spec mem [] node size

theorem absPath_append (a b : List CString) : absPath (a ++ b) = absPath a ++ absPath b := List.flatMap_append

theorem absPath_injective {a b : List CString} (ha : ∀ c ∈ a, chr '/' ∉ c) (hb : ∀ c ∈ b, chr '/' ∉ c)
    (h : absPath a = absPath b) : a = b := by
  have hsplit := congrArg (List.splitOn (chr '/')) h
  rw [splitOn_absPath ha,splitOn_absPath hb] at hsplit
  exact (List.cons.inj hsplit).2

structure Split (node slink : CString) where
  pre : List CString
  c : CString
  cs : List CString
  d : CString
  ds : List CString
  node_eq : node = absPath (pre ++ c::cs)
  slink_eq : slink = absPath (pre ++ d::ds)
  common : ∀ x ∈ pre, Component x
  nodeRest : ∀ x ∈ c::cs, x = [] ∨ Component x
  slinkRest : ∀ x ∈ d::ds, x = [] ∨ Component x
  nodeEnd : c = [] → cs = []
  commonDir_eq : commonDir node slink = absPath pre ++ [chr '/']
  relative : ∀ size, pathRelative node slink size =
    if backPath ds.length c cs = [] ∨ (backPath ds.length c cs).length ≥ size then none
    else some (backPath ds.length c cs)

theorem exists_split {node slink : CString} (hnode : NodePath node) (hslink : LinkPath slink) :
    Nonempty (Split node slink) := by
  obtain ⟨cs,c,hcs,hc,rfl⟩ := hnode
  obtain ⟨ds,hds,hd,rfl⟩ := hslink
  have hall : ∀ x ∈ cs ++ [c], x = [] ∨ Component x := by
    intro x hx
    rcases List.mem_append.mp hx with hx | hx
    · exact Or.inr (hcs x hx)
    · rwa [List.mem_singleton.mp hx]
  obtain ⟨a,as,ha⟩ := List.exists_cons_of_ne_nil (List.append_ne_nil_of_right_ne_nil cs (List.cons_ne_nil c []))
  obtain ⟨b,bs,rfl⟩ := List.exists_cons_of_ne_nil hds
  have hin : ∀ x ∈ a::as, x = [] ∨ Component x := ha ▸ hall
  obtain ⟨pre,c',cs',d',ds',hcs',hds',hdir,hrel⟩ :=
    pathRelative_absPath (fun x hx => slash_not_mem (hin x hx)) (fun x hx => slash_not_mem (hd x hx))
  rw [← ha] at hcs' hdir hrel
  have hfront : pre ++ (c'::cs').dropLast = cs := by
    have hlast := congrArg List.dropLast hcs'
    rw [List.dropLast_concat,List.dropLast_append_of_ne_nil (List.cons_ne_nil _ _)] at hlast
    exact hlast.symm
  refine ⟨⟨pre,c',cs',d',ds',by rw [hcs'],by rw [hds'],?_,?_,?_,?_,hdir,hrel⟩⟩
  · exact fun x hx => hcs x (hfront ▸ List.mem_append_left _ hx)
  · exact fun x hx => hall x (hcs' ▸ List.mem_append_right _ hx)
  · exact fun x hx => hd x (hds' ▸ List.mem_append_right _ hx)
  · intro hnil
    by_contra hne
    refine (hcs c' (hfront ▸ List.mem_append_right _ ?_)).1 hnil
    rw [List.dropLast_cons_of_ne_nil hne]
    exact List.mem_cons_self

variable {node slink : CString}

theorem Split.targetLength_eq (s : Split node slink) : targetLength node slink = (backPath s.ds.length s.c s.cs).length := by
  have hdrop : ∀ (x : CString) (xs : List CString),
      (absPath (s.pre ++ x::xs)).drop (absPath s.pre ++ [chr '/']).length = x ++ absPath xs := by
    intro x xs
    rw [absPath_append]
    show (absPath s.pre ++ ([chr '/'] ++ (x ++ absPath xs))).drop _ = _
    rw [← List.append_assoc,List.drop_left]
  have hslash : ∀ x ∈ s.d::s.ds, chr '/' ∉ x := fun x hx => slash_not_mem (s.slinkRest x hx)
  have hnode : node.drop (commonDir node slink).length = s.c ++ absPath s.cs := by
    rw [s.commonDir_eq]
    exact (congrArg (List.drop _) s.node_eq).trans (hdrop _ _)
  have hslink : slink.drop (commonDir node slink).length = s.d ++ absPath s.ds := by
    rw [s.commonDir_eq]
    exact (congrArg (List.drop _) s.slink_eq).trans (hdrop _ _)
  have hcount : (s.d ++ absPath s.ds).count (chr '/') = s.ds.length := by
    rw [List.count_append,List.count_eq_zero_of_not_mem (hslash _ List.mem_cons_self),
      count_absPath fun x hx => hslash x (List.mem_cons_of_mem _ hx),Nat.zero_add]
  have hback : (backPath s.ds.length s.c s.cs).length = 3*s.ds.length+(s.c ++ absPath s.cs).length := by
    show (dots s.ds.length ++ (s.c ++ absPath s.cs)).length = _
    rw [List.length_append,length_dots]
  rw [targetLength,hnode,hslink,hcount,hback]

theorem Split.normal_iff (s : Split node slink) :
    Normal slink ↔ ((s.d::s.ds).filter (· ≠ [])).length = s.ds.length+1 := by
  have hslash : ∀ x ∈ s.pre ++ s.d::s.ds, chr '/' ∉ x := by
    intro x hx
    rcases List.mem_append.mp hx with hx | hx
    · exact (s.common x hx).2.1
    · exact slash_not_mem (s.slinkRest x hx)
  have hfilter : ((s.d::s.ds).filter (· ≠ [])).length = s.ds.length+1 ↔ ∀ x ∈ s.d::s.ds, x ≠ [] := by
    rw [← List.length_cons,List.length_filter_eq_length_iff]
    exact forall₂_congr fun x _ => decide_eq_true_iff
  rw [hfilter]
  constructor
  · rintro ⟨xs,-,hxs,heq⟩ x hx
    rw [s.slink_eq] at heq
    have hsame := absPath_injective hslash (fun x hx => (hxs x hx).2.1) heq
    exact (hxs x (hsame ▸ List.mem_append_right _ hx)).1
  · intro h
    refine ⟨_,List.append_ne_nil_of_right_ne_nil _ (List.cons_ne_nil _ _),?_,s.slink_eq⟩
    intro x hx
    rcases List.mem_append.mp hx with hx | hx
    · exact s.common x hx
    · exact (s.slinkRest x hx).resolve_left (h x hx)

theorem Split.root_iff (s : Split node slink) : commonDir node slink = [chr '/'] ↔ s.pre = [] := by
  rw [s.commonDir_eq]
  cases s.pre with
  | nil => exact iff_of_true rfl rfl
  | cons x xs =>
    refine iff_of_false ?_ (List.cons_ne_nil _ _)
    intro h
    have hlen := congrArg List.length h
    rw [List.length_append,List.length_singleton] at hlen
    have hpos : 0 < (absPath (x::xs)).length := Nat.succ_pos _
    omega

/-- The way back leads to the node exactly where the link has no empty component, or only the root is common. -/
theorem Split.resolve_iff (s : Split node slink) (hne : backPath s.ds.length s.c s.cs ≠ []) :
    resolve slink (backPath s.ds.length s.c s.cs) = lookup node ↔
      Normal slink ∨ commonDir node slink = [chr '/'] := by
  have hnode : ∀ x ∈ s.pre ++ s.c::s.cs, x = [] ∨ Component x := by
    intro x hx
    rcases List.mem_append.mp hx with hx | hx
    · exact Or.inr (s.common x hx)
    · exact s.nodeRest x hx
  have hlast : s.c = [] → s.ds = [] → False := by
    intro hc hds
    apply hne
    rw [hc,hds,s.nodeEnd hc]
    rfl
  have hresolve := resolve_backPath s.common s.slinkRest s.nodeRest hlast
  rw [← s.slink_eq] at hresolve
  have hroot : enter [] [] = [] := rfl
  have hlookup : lookup node = absPath (s.pre ++ (s.c::s.cs).filter (· ≠ [])) := by
    refine (congrArg lookup s.node_eq).trans ?_
    rw [lookup,splitOn_absPath fun x hx => slash_not_mem (hnode x hx),List.foldl_cons,hroot,
      foldl_enter_filter hnode,List.nil_append,List.filter_append,filter_components s.common]
  have hlink : ∀ x ∈ s.pre ++ (s.d::s.ds).filter (· ≠ []), chr '/' ∉ x := by
    intro x hx
    rcases List.mem_append.mp hx with hx | hx
    · exact (s.common x hx).2.1
    · exact slash_not_mem (s.slinkRest x (List.mem_of_mem_filter hx))
  have hrest : ∀ x ∈ (s.c::s.cs).filter (· ≠ []), chr '/' ∉ x :=
    fun x hx => slash_not_mem (s.nodeRest x (List.mem_of_mem_filter hx))
  have hfew : ((s.d::s.ds).filter (· ≠ [])).length ≤ s.ds.length+1 := List.length_filter_le _ _
  rw [s.normal_iff,s.root_iff,or_comm,← take_dropLast_iff hfew,hresolve,hlookup]
  constructor
  · intro h
    refine List.append_cancel_right (absPath_injective ?_ ?_ h)
    · intro x hx
      rcases List.mem_append.mp hx with hx | hx
      · exact hlink x (List.dropLast_subset _ (List.mem_of_mem_take hx))
      · exact hrest x hx
    · intro x hx
      rcases List.mem_append.mp hx with hx | hx
      · exact (s.common x hx).2.1
      · exact hrest x hx
  · intro h
    rw [h]

theorem nul_backPath {n : ℕ} {c : CString} {cs : List CString} (h : 0 ∉ c ++ absPath cs) : 0 ∉ backPath n c cs := by
  intro hmem
  rcases List.mem_append.mp hmem with hmem | hmem
  · obtain ⟨x,hx,hzero⟩ := List.mem_flatten.mp hmem
    rw [(List.mem_replicate.mp hx).2] at hzero
    exact absurd hzero (by decide)
  · exact h hmem

/-- The result is 0 or a target inside of the buffer that leads to the node, exactly where the link has no empty
component, or has only the root in common with the node, or there is no target or no room for it. -/
theorem path_relative_iff (hnode : NodePath node) (hslink : LinkPath slink) (hnul : 0 ∉ node) (mem : Memory) (size : ℕ) :
    TargetRight node slink size (pathRelativeRun mem node slink size) ↔
      Normal slink ∨ commonDir node slink = [chr '/'] ∨ targetLength node slink = 0 ∨ size ≤ targetLength node slink := by
  obtain ⟨s⟩ := exists_split hnode hslink
  have hrun := pathRelativeRun_spec mem node slink size
  have hrest : 0 ∉ s.c ++ absPath s.cs := by
    intro h
    refine hnul ?_
    rw [s.node_eq,absPath_append]
    exact List.mem_append_right _ (List.mem_cons_of_mem _ h)
  rw [s.targetLength_eq]
  rw [s.relative size] at hrun
  by_cases hnone : backPath s.ds.length s.c s.cs = [] ∨ (backPath s.ds.length s.c s.cs).length ≥ size
  · rw [if_pos hnone] at hrun
    refine iff_of_true (Or.inl hrun) (Or.inr (Or.inr ?_))
    rwa [List.length_eq_zero_iff]
  · rw [if_neg hnone] at hrun
    obtain ⟨hresult,hlt,hholds,hend,hwrites⟩ := hrun
    obtain ⟨hne,-⟩ := not_or.mp hnone
    have htext := hholds.text hend (nul_backPath hrest) hlt
    have hzero : (pathRelativeRun mem node slink size).1 ≠ 0 := by
      rw [hresult]
      exact mt List.length_eq_zero_iff.mp hne
    have hlate : ¬((backPath s.ds.length s.c s.cs).length = 0 ∨ size ≤ (backPath s.ds.length s.c s.cs).length) := by
      rw [List.length_eq_zero_iff]
      exact hnone
    have hinside : ∀ i ∈ (pathRelativeRun mem node slink size).2.writes, i < size := by
      intro i hi
      rw [hwrites] at hi
      have hi := List.mem_range.mp hi
      omega
    rw [TargetRight,or_iff_right hzero,htext,hresult,← or_assoc,or_iff_left hlate,← s.resolve_iff hne]
    exact ⟨fun h => h.2.2.2,fun h => ⟨hinside,hend,rfl,h⟩⟩

theorem path_relative_iff_cdrom :
    TargetRight (str "/dev/sr0") (str "/dev/cdrom") 64
      (pathRelativeRun (fun _ => 0) (str "/dev/sr0") (str "/dev/cdrom") 64) ↔
      Normal (str "/dev/cdrom") ∨ commonDir (str "/dev/sr0") (str "/dev/cdrom") = [chr '/'] ∨
        targetLength (str "/dev/sr0") (str "/dev/cdrom") = 0 ∨
        64 ≤ targetLength (str "/dev/sr0") (str "/dev/cdrom") := by
  refine path_relative_iff ⟨[str "dev"],str "sr0",by decide,by decide,by decide⟩ ?_ (by decide) (fun _ => 0) 64
  exact ⟨[str "dev",str "cdrom"],by decide,by decide,by decide⟩

/-- Two slashes are two steps up from one directory. -/
theorem path_relative_outside :
    ¬TargetRight (str "/dev/sda") (str "/dev/disk//x") 1024
      (pathRelativeRun (fun _ => 0) (str "/dev/sda") (str "/dev/disk//x") 1024) := by
  have hrun := pathRelativeRun_spec (fun _ => 0) (str "/dev/sda") (str "/dev/disk//x") 1024
  have htarget : pathRelative (str "/dev/sda") (str "/dev/disk//x") 1024 = some (str "../../sda") := by decide
  rw [htarget] at hrun
  obtain ⟨hresult,-,hholds,hend,-⟩ := hrun
  have hlen : (str "../../sda").length < 1024 := by decide
  have htext := hholds.text hend (by decide) hlen
  rintro (h | ⟨-,-,-,h⟩)
  · exact absurd (hresult.symm.trans h) (by decide)
  · rw [htext] at h
    exact absurd h (by decide +kernel)

end DevPath
end Udev
