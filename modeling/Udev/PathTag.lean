import Udev.Memory
import Mathlib.Data.List.Chain
import Mathlib.Data.List.DropRight

/-! The tag of a path. One pass over the path looks back at what it put last, and a second one
over the end of the buffer takes off what was put too much. -/
namespace Udev
namespace PathTag

open CString Memory

def isTagChar (c : UInt8) : Bool :=
  (chr '0' ≤ c && c ≤ chr '9') || (chr 'A' ≤ c && c ≤ chr 'Z') || (chr 'a' ≤ c && c ≤ chr 'z') || c = chr '-'

def tagLoop : CString → Cursor → Cursor
  | [], tag => tag
  | c::path, tag =>
    if isTagChar c then tagLoop path (tag.put c)
    else if tag.pos = 0 then tagLoop path tag
    else if tag.mem (tag.pos-1) = chr '_' then tagLoop path tag
    else tagLoop path (tag.put (chr '_'))

def stripTrailing (tag : Memory) : ℕ → ℕ
  | 0 => 0
  | i+1 => if tag i = chr '_' then stripTrailing tag i else i+1

/-- The tag of `builtin_path_id`, with what was in the buffer. The place is that of the terminator. -/
def pathTagRun (mem : Memory) (path : CString) : Cursor :=
  let tag := tagLoop path (Cursor.start mem)
  let i := stripTrailing tag.mem tag.pos
  { mem := Function.update tag.mem i 0, pos := i, writes := tag.writes ++ [i] }

def replaceRuns : CString → CString
  | [] => []
  | c::path =>
    if isTagChar c then c::replaceRuns path
    else chr '_'::replaceRuns (path.dropWhile fun d => !isTagChar d)
termination_by path => path.length
decreasing_by
  · exact Nat.lt_succ_self _
  · exact Nat.lt_succ_of_le (List.dropWhile_suffix _).length_le

abbrev isUnderscore (c : UInt8) : Bool := c = chr '_'

def stripBoth (s : CString) : CString := (s.dropWhile isUnderscore).rdropWhile isUnderscore

/-- The runs of other characters that have a tag character on both sides. -/
def gaps : CString → ℕ
  | [] => 0
  | c::path => (if isTagChar c && !isTagChar (charAt path 0) && path.any isTagChar then 1 else 0)+gaps path

/-- The tag that is read back is the normal form of the path, and no place behind the buffer was written. -/
structure TagRight (path : CString) (tag : Cursor) : Prop where
  chars : ∀ c ∈ tag.mem.text (tag.pos+1), isTagChar c ∨ c = chr '_'
  first : ∀ c ∈ (tag.mem.text (tag.pos+1)).head?, c ≠ chr '_'
  last : ∀ c ∈ (tag.mem.text (tag.pos+1)).getLast?, c ≠ chr '_'
  single : (tag.mem.text (tag.pos+1)).IsChain fun c d => ¬(c = chr '_' ∧ d = chr '_')
  normal : tag.mem.text (tag.pos+1) = stripBoth (replaceRuns path)
  terminated : tag.mem tag.pos = 0
  inside : ∀ i ∈ tag.writes, i < 512

theorem tagChar_ne_underscore {c : UInt8} (h : isTagChar c) : c ≠ chr '_' := by
  rintro rfl
  exact absurd h (by decide)

theorem tagChar_ne_nul {c : UInt8} (h : isTagChar c) : c ≠ 0 := by
  rintro rfl
  exact absurd h (by decide)

theorem dropWhile_tagChar {c : UInt8} (h : isTagChar c) (s : CString) : (c::s).dropWhile isUnderscore = c::s :=
  List.dropWhile_cons_of_neg (by rw [decide_eq_true_iff]; exact tagChar_ne_underscore h)

theorem dropWhile_underscore (s : CString) : (chr '_'::s).dropWhile isUnderscore = s.dropWhile isUnderscore :=
  List.dropWhile_cons_of_pos (decide_eq_true rfl)

theorem replaceRuns_tagChar {c : UInt8} (h : isTagChar c) (path : CString) :
    replaceRuns (c::path) = c::replaceRuns path := by
  rw [replaceRuns,if_pos h]

theorem replaceRuns_dropWhile (path : CString) :
    replaceRuns (path.dropWhile fun d => !isTagChar d) = (replaceRuns path).dropWhile isUnderscore := by
  induction path with
  | nil =>
    rw [List.dropWhile_nil,replaceRuns,List.dropWhile_nil]
  | cons c path ih =>
    by_cases h : isTagChar c
    · rw [List.dropWhile_cons_of_neg (by rw [h]; decide),replaceRuns_tagChar h,dropWhile_tagChar h]
    · have hother : (c::path).dropWhile (fun d => !isTagChar d) = path.dropWhile fun d => !isTagChar d :=
        List.dropWhile_cons_of_pos (by rw [Bool.not_eq_true',Bool.eq_false_iff]; exact h)
      rw [hother,replaceRuns,if_neg h,dropWhile_underscore,ih,List.dropWhile_idempotent]

theorem replaceRuns_other {c : UInt8} (h : ¬isTagChar c) (path : CString) :
    replaceRuns (c::path) = chr '_'::(replaceRuns path).dropWhile isUnderscore := by
  rw [replaceRuns,if_neg h,replaceRuns_dropWhile]

theorem replaceRuns_chars {path : CString} {c : UInt8} (h : c ∈ replaceRuns path) : isTagChar c ∨ c = chr '_' := by
  induction path with
  | nil => exact absurd h (by rw [replaceRuns]; exact List.not_mem_nil)
  | cons d path ih =>
    by_cases hd : isTagChar d
    · rw [replaceRuns_tagChar hd] at h
      rcases List.mem_cons.mp h with rfl | h
      · exact Or.inl hd
      · exact ih h
    · rw [replaceRuns_other hd] at h
      rcases List.mem_cons.mp h with h | h
      · exact Or.inr h
      · exact ih ((List.dropWhile_suffix _).subset h)

theorem head_dropWhile {s : CString} {c : UInt8} (h : c ∈ (s.dropWhile isUnderscore).head?) : c ≠ chr '_' := by
  have hnot := List.head?_dropWhile_not isUnderscore s
  rw [Option.mem_def.mp h] at hnot
  exact of_decide_eq_false hnot

theorem replaceRuns_single (path : CString) : (replaceRuns path).IsChain fun c d => ¬(c = chr '_' ∧ d = chr '_') := by
  induction path with
  | nil =>
    rw [replaceRuns]
    exact List.isChain_nil
  | cons c path ih =>
    by_cases hc : isTagChar c
    · rw [replaceRuns_tagChar hc,List.isChain_cons]
      exact ⟨fun d _ h => tagChar_ne_underscore hc h.1,ih⟩
    · rw [replaceRuns_other hc,List.isChain_cons]
      exact ⟨fun d hd h => head_dropWhile hd h.2,ih.suffix (List.dropWhile_suffix _)⟩

/-- What is put behind `out` for the rest of a path. -/
def restOf (out path : CString) : CString :=
  if out.getLast?.all isUnderscore then (replaceRuns path).dropWhile isUnderscore else replaceRuns path

theorem tagLoop_filled (path : CString) {mem : Memory} {tag : Cursor} {out : CString} (h : tag.Filled mem out) :
    (tagLoop path tag).Filled mem (out ++ restOf out path) := by
  induction path generalizing tag out with
  | nil =>
    have hrest : restOf out [] = [] := by
      rw [restOf,replaceRuns]
      exact ite_self _
    rw [hrest,List.append_nil]
    exact h
  | cons c path ih =>
    have hlast : ∀ d, (out ++ [d]).getLast?.all isUnderscore = isUnderscore d := by
      intro d
      rw [List.getLast?_append_of_ne_nil _ (List.cons_ne_nil _ _)]
      rfl
    rw [tagLoop]
    by_cases hc : isTagChar c
    · rw [if_pos hc]
      have hput : out ++ restOf out (c::path) = out ++ [c] ++ restOf (out ++ [c]) path := by
        have hone : restOf (out ++ [c]) path = replaceRuns path := by
          rw [restOf,hlast,if_neg]
          rw [decide_eq_true_iff]
          exact tagChar_ne_underscore hc
        rw [hone,restOf,replaceRuns_tagChar hc,dropWhile_tagChar hc,ite_self,List.append_assoc,List.singleton_append]
      rw [hput]
      exact ih (h.put c)
    · rw [if_neg hc]
      have hskip : out.getLast?.all isUnderscore → restOf out (c::path) = restOf out path := by
        intro hall
        rw [restOf,if_pos hall,restOf,if_pos hall,replaceRuns_other hc,dropWhile_underscore,List.dropWhile_idempotent]
      rcases List.eq_nil_or_concat' out with rfl | ⟨out,d,rfl⟩
      · have hpos : tag.pos = 0 := h.pos
        rw [if_pos hpos,hskip rfl]
        exact ih h
      · have hpos : tag.pos ≠ 0 := by
          rw [h.pos,List.length_append]
          exact Nat.succ_ne_zero _
        rw [if_neg hpos,h.look_back]
        by_cases hd : d = chr '_'
        · rw [if_pos hd,hskip (by rw [hd]; rw [List.getLast?_append_of_ne_nil _ (List.cons_ne_nil _ _)]; rfl)]
          exact ih h
        · have hnot : (out ++ [d]).getLast?.all isUnderscore ≠ true := by
            rw [List.getLast?_append_of_ne_nil _ (List.cons_ne_nil _ _)]
            show decide (d = chr '_') ≠ true
            rw [Ne,decide_eq_true_iff]
            exact hd
          have hput : out ++ [d] ++ restOf (out ++ [d]) (c::path) =
              out ++ [d] ++ [chr '_'] ++ restOf (out ++ [d] ++ [chr '_']) path := by
            have hone : restOf (out ++ [d] ++ [chr '_']) path = (replaceRuns path).dropWhile isUnderscore := by
              rw [restOf,hlast,if_pos (decide_eq_true rfl)]
            rw [hone,restOf,if_neg hnot,replaceRuns_other hc,List.append_assoc _ [chr '_'],List.singleton_append]
          rw [if_neg hd,hput]
          exact ih (h.put _)

theorem rdropWhile_underscore {c : UInt8} (h : c = chr '_') (s : CString) :
    (s ++ [c]).rdropWhile isUnderscore = s.rdropWhile isUnderscore :=
  List.rdropWhile_concat_pos isUnderscore s c (decide_eq_true h)

theorem rdropWhile_other {c : UInt8} (h : c ≠ chr '_') (s : CString) :
    (s ++ [c]).rdropWhile isUnderscore = s ++ [c] :=
  List.rdropWhile_concat_neg isUnderscore s c (by rw [decide_eq_true_iff]; exact h)

theorem stripTrailing_holds {tag : Memory} {out : CString} (h : tag.Holds out) :
    stripTrailing tag out.length = (out.rdropWhile isUnderscore).length := by
  induction out using List.reverseRecOn with
  | nil => rfl
  | append_singleton out c ih =>
    rw [List.length_append,List.length_singleton,stripTrailing,h.last]
    by_cases hc : c = chr '_'
    · rw [if_pos hc,rdropWhile_underscore hc,ih h.left]
    · rw [if_neg hc,rdropWhile_other hc,List.length_append,
        List.length_singleton]

theorem prefix_stripBoth (path : CString) :
    stripBoth (replaceRuns path) <+: (replaceRuns path).dropWhile isUnderscore :=
  List.rdropWhile_prefix _ _

theorem stripBoth_chars {path : CString} {c : UInt8} (h : c ∈ stripBoth (replaceRuns path)) :
    isTagChar c ∨ c = chr '_' :=
  replaceRuns_chars ((List.dropWhile_suffix _).subset ((prefix_stripBoth path).subset h))

theorem stripBoth_first {path : CString} {c : UInt8} (h : c ∈ (stripBoth (replaceRuns path)).head?) : c ≠ chr '_' := by
  obtain ⟨rest,hrest⟩ := prefix_stripBoth path
  have hhead : c ∈ ((replaceRuns path).dropWhile isUnderscore).head? := by
    rw [← hrest,List.head?_append,Option.mem_def.mp h]
    rfl
  exact head_dropWhile hhead

theorem stripBoth_last {path : CString} {c : UInt8} (h : c ∈ (stripBoth (replaceRuns path)).getLast?) : c ≠ chr '_' := by
  obtain ⟨hne,hlast⟩ := List.mem_getLast?_eq_getLast h
  rw [hlast]
  have hnot := List.rdropWhile_last_not isUnderscore _ hne
  rwa [decide_eq_true_iff] at hnot

theorem stripBoth_single (path : CString) :
    (stripBoth (replaceRuns path)).IsChain fun c d => ¬(c = chr '_' ∧ d = chr '_') :=
  List.IsChain.prefix ((replaceRuns_single path).suffix (List.dropWhile_suffix _)) (prefix_stripBoth path)

theorem length_le_stripBoth (path : CString) :
    ((replaceRuns path).dropWhile isUnderscore).length ≤ (stripBoth (replaceRuns path)).length+1 := by
  have hsingle := (replaceRuns_single path).suffix (List.dropWhile_suffix isUnderscore)
  rw [stripBoth]
  rcases List.eq_nil_or_concat' ((replaceRuns path).dropWhile isUnderscore) with hout | ⟨out,c,hout⟩
  · rw [hout]
    exact Nat.zero_le _
  · rw [hout] at hsingle ⊢
    by_cases hc : c = chr '_'
    · have hself : out.rdropWhile isUnderscore = out := by
        rw [List.rdropWhile_eq_self_iff]
        intro hne hlast
        have hpair := (List.isChain_append.mp hsingle).2.2 _ (List.getLast?_eq_getLast_of_ne_nil hne) c rfl
        exact hpair ⟨of_decide_eq_true hlast,hc⟩
      rw [rdropWhile_underscore hc,hself,List.length_append,List.length_singleton]
    · rw [rdropWhile_other hc]
      exact Nat.le_succ _

/-- The pass ends with the normal form in the buffer, and each place up to the last byte that was put has
been written. -/
theorem pathTagRun_spec (mem : Memory) (path : CString) :
    (pathTagRun mem path).mem.Holds (stripBoth (replaceRuns path)) ∧
    (pathTagRun mem path).pos = (stripBoth (replaceRuns path)).length ∧
    (pathTagRun mem path).writes = List.range ((replaceRuns path).dropWhile isUnderscore).length ++
      [(stripBoth (replaceRuns path)).length] := by
  have hloop : (tagLoop path (Cursor.start mem)).Filled mem ((replaceRuns path).dropWhile isUnderscore) :=
    tagLoop_filled path (Cursor.filled_start mem)
  have hi : (pathTagRun mem path).pos = (stripBoth (replaceRuns path)).length := by
    show stripTrailing _ _ = _
    rw [hloop.pos]
    exact stripTrailing_holds hloop.holds
  have hmem : (pathTagRun mem path).mem =
      Function.update (tagLoop path (Cursor.start mem)).mem (pathTagRun mem path).pos 0 := rfl
  have hwrites : (pathTagRun mem path).writes = (tagLoop path (Cursor.start mem)).writes ++ [(pathTagRun mem path).pos] := rfl
  obtain ⟨rest,hrest⟩ := prefix_stripBoth path
  have hleft : (tagLoop path (Cursor.start mem)).mem.Holds (stripBoth (replaceRuns path)) := by
    refine Holds.left (t := rest) ?_
    rw [hrest]
    exact hloop.holds
  constructor
  · rw [hmem,hi]
    exact (hleft.put 0).left
  constructor
  · exact hi
  · rw [hwrites,hi,hloop.writes]

theorem pathTagRun_text (mem : Memory) (path : CString) :
    (pathTagRun mem path).mem.text ((pathTagRun mem path).pos+1) = stripBoth (replaceRuns path) := by
  obtain ⟨hholds,hi,-⟩ := pathTagRun_spec mem path
  refine hholds.text ?_ ?_ ?_
  · rw [← hi]
    exact Function.update_self ..
  · intro h
    rcases stripBoth_chars h with h | h
    · exact tagChar_ne_nul h rfl
    · exact absurd h (by decide)
  · rw [hi]
    exact Nat.lt_succ_self _

theorem pathTagRun_inside_iff (mem : Memory) (path : CString) :
    (∀ i ∈ (pathTagRun mem path).writes, i < 512) ↔ (stripBoth (replaceRuns path)).length < 512 := by
  rw [(pathTagRun_spec mem path).2.2]
  have hone := length_le_stripBoth path
  constructor
  · intro h
    exact h _ (List.mem_append_right _ (List.mem_singleton_self _))
  · intro h i hi
    rcases List.mem_append.mp hi with hi | hi
    · have hlt := List.mem_range.mp hi
      omega
    · rwa [List.mem_singleton.mp hi]

theorem mem_dropWhile_tagChar {s : CString} {c : UInt8} (hc : isTagChar c) :
    c ∈ s.dropWhile isUnderscore ↔ c ∈ s := by
  induction s with
  | nil => exact Iff.rfl
  | cons d s ih =>
    by_cases hd : d = chr '_'
    · have hne : c ≠ chr '_' := tagChar_ne_underscore hc
      rw [hd,dropWhile_underscore,ih,List.mem_cons,or_iff_right hne]
    · rw [List.dropWhile_cons_of_neg (by rw [decide_eq_true_iff]; exact hd)]

theorem mem_replaceRuns_tagChar {path : CString} {c : UInt8} (hc : isTagChar c) :
    c ∈ replaceRuns path ↔ c ∈ path := by
  induction path with
  | nil => rw [replaceRuns]
  | cons d path ih =>
    by_cases hd : isTagChar d
    · rw [replaceRuns_tagChar hd,List.mem_cons,List.mem_cons,ih]
    · have hne : c ≠ d := fun h => hd (h ▸ hc)
      rw [replaceRuns_other hd,List.mem_cons,List.mem_cons,mem_dropWhile_tagChar hc,ih,
        or_iff_right (tagChar_ne_underscore hc),or_iff_right hne]

theorem rdropWhile_cons (c : UInt8) (s : CString) : (c::s).rdropWhile isUnderscore =
    if s.rdropWhile isUnderscore = [] ∧ c = chr '_' then [] else c::s.rdropWhile isUnderscore := by
  induction s using List.reverseRecOn with
  | nil =>
    rw [List.rdropWhile_singleton,List.rdropWhile_nil]
    by_cases hc : c = chr '_'
    · rw [if_pos (decide_eq_true hc),if_pos ⟨rfl,hc⟩]
    · rw [if_neg (by rw [decide_eq_true_iff]; exact hc),if_neg (fun h => hc h.2)]
  | append_singleton s d ih =>
    rw [← List.cons_append]
    by_cases hd : d = chr '_'
    · rw [rdropWhile_underscore hd,rdropWhile_underscore hd,ih]
    · rw [rdropWhile_other hd,rdropWhile_other hd,if_neg,List.cons_append]
      exact fun h => List.append_ne_nil_of_right_ne_nil _ (List.cons_ne_nil _ _) h.1

theorem stripBoth_eq_nil_iff (path : CString) : stripBoth (replaceRuns path) = [] ↔ path.any isTagChar = false := by
  rw [stripBoth,List.rdropWhile_eq_nil_iff,List.any_eq_false]
  constructor
  · intro h c hmem hc
    have hin := (mem_dropWhile_tagChar hc).mpr ((mem_replaceRuns_tagChar hc).mpr hmem)
    exact tagChar_ne_underscore hc (of_decide_eq_true (h c hin))
  · intro h c hmem
    rcases replaceRuns_chars ((List.dropWhile_suffix _).subset hmem) with hc | hc
    · exact absurd hc (h c ((mem_replaceRuns_tagChar hc).mp ((mem_dropWhile_tagChar hc).mp hmem)))
    · exact decide_eq_true hc

/-- Before the strip, a path that does not begin with a tag character begins with an underscore. -/
theorem rdropWhile_replaceRuns_length (path : CString) : ((replaceRuns path).rdropWhile isUnderscore).length =
    (if !isTagChar (charAt path 0) && path.any isTagChar then 1 else 0)+(stripBoth (replaceRuns path)).length := by
  cases path with
  | nil =>
    rw [replaceRuns]
    rfl
  | cons c path =>
    by_cases hc : isTagChar c
    · have hhead : (!isTagChar (charAt (c::path) 0)) = false := by
        rw [Bool.not_eq_false']
        exact hc
      rw [hhead,Bool.false_and,stripBoth,replaceRuns_tagChar hc,dropWhile_tagChar hc]
      exact (Nat.zero_add _).symm
    · have hhead : (!isTagChar (charAt (c::path) 0)) = true := by
        rw [Bool.not_eq_true',Bool.eq_false_iff]
        exact hc
      have hnil := stripBoth_eq_nil_iff (c::path)
      rw [hhead,Bool.true_and]
      rw [stripBoth,replaceRuns_other hc,dropWhile_underscore,List.dropWhile_idempotent] at hnil ⊢
      rw [rdropWhile_cons]
      by_cases hany : (c::path).any isTagChar = true
      · rw [if_pos hany,if_neg (fun h => absurd (hnil.mp h.1) (by rw [hany]; decide)),List.length_cons]
        exact Nat.add_comm _ 1
      · have hempty := hnil.mpr (Bool.eq_false_iff.mpr hany)
        rw [if_neg hany,if_pos ⟨hempty,rfl⟩,hempty]
        rfl

theorem stripBoth_length (path : CString) :
    (stripBoth (replaceRuns path)).length = path.countP isTagChar+gaps path := by
  induction path with
  | nil =>
    rw [replaceRuns]
    rfl
  | cons c path ih =>
    by_cases hc : isTagChar c
    · rw [stripBoth,replaceRuns_tagChar hc,dropWhile_tagChar hc,rdropWhile_cons,
        if_neg (fun h => tagChar_ne_underscore hc h.2),List.length_cons,List.countP_cons_of_pos hc,gaps,hc,
        rdropWhile_replaceRuns_length,ih,Bool.true_and]
      omega
    · rw [stripBoth,replaceRuns_other hc,dropWhile_underscore,List.dropWhile_idempotent,
        List.countP_cons_of_neg hc,gaps,Bool.eq_false_iff.mpr hc,Bool.false_and,Bool.false_and,
        if_neg Bool.false_ne_true,Nat.zero_add]
      exact ih

theorem pathTagRun_right_iff (mem : Memory) (path : CString) :
    TagRight path (pathTagRun mem path) ↔ (stripBoth (replaceRuns path)).length < 512 := by
  have htext := pathTagRun_text mem path
  constructor
  · intro h
    exact (pathTagRun_inside_iff mem path).mp h.inside
  · intro h
    constructor
    · rw [htext]
      exact fun c => stripBoth_chars
    · rw [htext]
      exact fun c => stripBoth_first
    · rw [htext]
      exact fun c => stripBoth_last
    · rw [htext]
      exact stripBoth_single path
    · exact htext
    · exact Function.update_self ..
    · exact (pathTagRun_inside_iff mem path).mpr h

/-- The tag is the normal form inside of its buffer exactly where the tag characters and the gaps between
them are less than 512. -/
theorem path_tag_iff (mem : Memory) (path : CString) :
    TagRight path (pathTagRun mem path) ↔ path.countP isTagChar+gaps path < 512 := by
  rw [pathTagRun_right_iff,stripBoth_length]

example : stripBoth (replaceRuns (str "-pci-0000:00:1f.2__ata/1/")) = str "-pci-0000_00_1f_2_ata_1" := by
  decide +kernel

/-- The terminator of a tag with 512 characters is put behind the buffer. -/
theorem path_tag_overflow :
    ¬TagRight (List.replicate 512 (chr 'a')) (pathTagRun (fun _ => 0) (List.replicate 512 (chr 'a'))) := by
  rw [pathTagRun_right_iff,stripBoth_length]
  decide +kernel

end PathTag
end Udev
