import Udev.Bisect
import Udev.Strbuf
import Mathlib.Data.List.Perm.Subperm

/-! The string buffer over a sequence of additions: every string stays where it was stored,
and only a string that is not the tail of an earlier one is written. -/
namespace Udev
namespace StringStore

open RadixTree Strbuf Bisect

/-- `struct strbuf`. -/
structure Store where
  buf : List UInt8
  root : StrbufNode
  nodesCount : ℕ
  inCount : ℕ
  inLen : ℕ
  dedupLen : ℕ
  dedupCount : ℕ

def strbufNew : Store := ⟨[0],.node (0,0) [],1,0,0,0,0⟩

/-- `bubbleinsert`: the new entry goes behind the entries that are not larger. -/
def bubbleinsert (children : List (UInt8 × StrbufNode)) (c : UInt8) (child : StrbufNode) :
    List (UInt8 × StrbufNode) :=
  let cmp := fun middle => if (children[middle]?.elim 0 (·.1)) ≤ c then .gt else .lt
  match bisect (fun left right => (right+left)/2) cmp children.length 0 children.length with
  | some (.inr left) => children.take left ++ (c,child)::children.drop left
  | _ => children

/-- The loop of `strbuf_add_string` over the characters of `s` from the last one on: the
offset, and the nodes with a new one if the string is to be stored. -/
def searchTail (buf : List UInt8) (s : CString) : List UInt8 → StrbufNode → ℕ × Option StrbufNode
  | [], .node (off,len) _ => (off+len-s.length,none)
  | c::cs, .node (off,len) ch =>
    if len ≥ s.length ∧ (buf.drop (off+len-s.length)).take s.length = s then (off+len-s.length,none)
    else
      match SortedMap.get ch c with
      | none => (buf.length,some (.node (off,len) (bubbleinsert ch c (.node (buf.length,s.length) []))))
      | some child =>
        let r := searchTail buf s cs child
        (r.1,r.2.map fun t => .node (off,len) (SortedMap.set ch c t))

def strbufAddString (str : Store) (s : CString) : ℕ × Store :=
  if s = [] then (0,str)
  else
    let str := { str with inCount := str.inCount+1, inLen := str.inLen+s.length }
    match searchTail str.buf s s.reverse str.root with
    | (off,none) => (off,{ str with dedupLen := str.dedupLen+s.length, dedupCount := str.dedupCount+1 })
    | (off,some root) => (off,{ str with buf := str.buf ++ s ++ [0], root := root, nodesCount := str.nodesCount+1 })

example : (strbufAddString (strbufAddString strbufNew (str "abc")).2 (str "bc")).1 = 2 := by decide

def Store.strbuf (str : Store) : Strbuf := ⟨str.buf,str.root⟩

section Bubbleinsert

variable {ch : List (UInt8 × StrbufNode)} {c : UInt8} {child : StrbufNode}

theorem insert_place {l l' : List (UInt8 × StrbufNode)} (hl : ∀ e ∈ l, e.1 < c) (hl' : ∀ e ∈ l', c < e.1) :
    SortedMap.insert c child (l ++ l') = l ++ (c,child)::l' := by
  induction l with
  | nil =>
    cases l' with
    | nil => rfl
    | cons e l' => rw [List.nil_append,SortedMap.insert,if_pos (hl' e List.mem_cons_self)]; rfl
  | cons e l ih =>
    have he := hl e List.mem_cons_self
    rw [List.cons_append,SortedMap.insert,if_neg (Std.not_gt_of_lt he),ih fun x hx => hl x (List.mem_cons_of_mem _ hx)]
    rfl

theorem bubbleinsert_eq (h : SortedMap.Sorted ch) (hc : SortedMap.get ch c = none) :
    bubbleinsert ch c child = SortedMap.insert c child ch := by
  rcases sorted_split (f := fun e : UInt8 × StrbufNode => e.1) h c with
    ⟨l,e,l',rfl,rfl,-,-⟩ | ⟨l,l',rfl,hl,hl'⟩
  · exact absurd rfl (SortedMap.get_eq_none.mp hc e (by simp))
  · have hplace : bisect (fun left right => (right+left)/2)
        (fun middle => if (l ++ l')[middle]?.elim 0 (·.1) ≤ c then .gt else .lt) (l ++ l').length 0
        (l ++ l').length = some (.inr l.length) := by
      refine bisect_place ?_ ⟨by simp,?_,?_⟩ (Nat.zero_le _) (by simp) (Nat.le_refl _) (by omega)
      · intro first last hlt _
        dsimp only
        omega
      · intro i hi
        rw [List.getElem?_append_left hi,List.getElem?_eq_getElem hi]
        exact if_pos (Std.le_of_lt (hl _ (List.getElem_mem hi)))
      · intro i hi hi'
        rw [List.length_append] at hi'
        have hlt : i-l.length < l'.length := by omega
        rw [List.getElem?_append_right hi,List.getElem?_eq_getElem hlt]
        exact if_neg (Std.not_le_of_gt (hl' _ (List.getElem_mem hlt)))
    rw [insert_place hl hl',bubbleinsert]
    simp only [hplace,List.take_left,List.drop_left]

end Bubbleinsert

theorem searchTail_eq {buf : List UInt8} {s cs : List UInt8} {t : StrbufNode} (h : Ordered t) :
    searchTail buf s cs t = searchNode buf s cs t := by
  induction cs generalizing t with
  | nil => cases t; rfl
  | cons c cs ih =>
    cases h with
    | @node data ch hsorted hch =>
      rw [searchTail,searchNode]
      split_ifs
      · rfl
      · cases hget : SortedMap.get ch c with
        | none => simp only [bubbleinsert_eq hsorted hget]
        | some child => simp only [ih (hch _ (SortedMap.mem_of_get hget))]

/-- The children of every node are strictly sorted, and no character of a string is 0. -/
def Children (t : StrbufNode) : Prop := t.Forall fun _ ch => SortedMap.Sorted ch ∧ ∀ e ∈ ch, e.1 ≠ 0

/-- There are not more characters than the counter of the children can count. -/
theorem length_children_le {ch : List (UInt8 × StrbufNode)} (h : SortedMap.Sorted ch) (h0 : ∀ e ∈ ch, e.1 ≠ 0) :
    ch.length ≤ 255 := by
  have hnodup : (ch.map fun e => e.1.toNat).Nodup := by
    refine List.pairwise_map.mpr (h.imp ?_)
    intro a b hlt
    exact Nat.ne_of_lt hlt
  have hsub : ch.map (fun e => e.1.toNat) ⊆ List.range' 1 255 := by
    intro n hn
    obtain ⟨e,he,rfl⟩ := List.mem_map.mp hn
    have hpos : e.1.toNat ≠ 0 := fun heq => h0 e he (UInt8.toNat_inj.mp heq)
    have hlt := e.1.toNat_lt
    rw [List.mem_range'_1]
    omega
  simpa using (hnodup.subperm hsub).length_le

inductive Holds (buf : List UInt8) (w : CString) : StrbufNode → Prop
  | here {off len : ℕ} {ch : List (UInt8 × StrbufNode)} (hat : At buf off w) (hlen : w.length = len) :
      Holds buf w (.node (off,len) ch)
  | child {data : ℕ × ℕ} {ch : List (UInt8 × StrbufNode)} {e : UInt8 × StrbufNode} (he : e ∈ ch)
      (h : Holds buf w e.2) : Holds buf w (.node data ch)

theorem holds_node {buf : List UInt8} {w : CString} {off len : ℕ} {ch : List (UInt8 × StrbufNode)} :
    Holds buf w (.node (off,len) ch) ↔ At buf off w ∧ w.length = len ∨ ∃ e ∈ ch, Holds buf w e.2 := by
  constructor
  · rintro (⟨hat,hlen⟩ | ⟨he,h⟩)
    · exact Or.inl ⟨hat,hlen⟩
    · exact Or.inr ⟨_,he,h⟩
  · rintro (⟨hat,hlen⟩ | ⟨e,he,h⟩)
    · exact .here hat hlen
    · exact .child he h

section Search

variable {buf path : List UInt8} {s w : CString} {t : StrbufNode}

theorem at_unique {off : ℕ} (h : At buf off s) (h' : At buf off w) (hlen : s.length = w.length) : s = w := by
  obtain ⟨rest,hrest⟩ := h
  obtain ⟨rest',hrest'⟩ := h'
  exact (List.append_inj (hrest.symm.trans hrest') hlen).1

theorem at_take {off len : ℕ} (hat : At buf off w) (hlen : w.length = len) (hle : s.length ≤ len) :
    (buf.drop (off+len-s.length)).take s.length = w.drop (len-s.length) := by
  obtain ⟨rest,hrest⟩ := hat
  have hoff : off+len-s.length = off+(len-s.length) := by omega
  have hdrop : (w.drop (len-s.length)).length = s.length := by
    rw [List.length_drop]
    omega
  rw [hoff,← List.drop_drop,hrest,List.drop_append_of_le_length (by omega),
    List.take_append_of_le_length hdrop.ge,List.take_of_length_le hdrop.le]

theorem compare_iff {off len : ℕ} (hat : At buf off w) (hlen : w.length = len) :
    (len ≥ s.length ∧ (buf.drop (off+len-s.length)).take s.length = s) ↔ s <:+ w := by
  constructor
  · rintro ⟨hle,hcopy⟩
    rw [at_take hat hlen hle] at hcopy
    exact hcopy ▸ List.drop_suffix _ _
  · intro hs
    refine ⟨hlen ▸ hs.length_le,?_⟩
    rw [at_take hat hlen (hlen ▸ hs.length_le),← hlen]
    exact (List.suffix_iff_eq_drop.mp hs).symm

/-- The string that a node holds ends in the characters on the way to it. -/
theorem Holds.path_prefix (h : Holds buf w t) (ht : ValidNode buf path t) : path <+: w.reverse := by
  induction h generalizing path with
  | here hat hlen =>
    cases ht with
    | node v hat' hlen' hpath _ => exact at_unique hat' hat (hlen'.trans hlen.symm) ▸ hpath
  | child he _ ih =>
    cases ht with
    | node _ _ _ _ hch => exact (List.prefix_append _ _).trans (ih (hch _ he))

/-- The search finds the strings that end in `s`, wherever their nodes are. -/
theorem searchNode_none_iff {cs : List UInt8} (ht : ValidNode buf path t) (ho : Children t)
    (hs : s.reverse = path ++ cs) :
    (searchNode buf s cs t).2 = none ↔ ∃ w, Holds buf w t ∧ s <:+ w := by
  induction cs generalizing path t with
  | nil =>
    cases ht with
    | node w hat hlen hpath _ =>
      rw [List.append_nil] at hs
      exact iff_of_true rfl ⟨w,.here hat hlen,List.reverse_prefix.mp (hs ▸ hpath)⟩
  | cons c cs ih =>
    cases ht with
    | @node _ off len ch v hat hlen hpath hch =>
      cases ho with
      | node hsorted hchildren =>
        rw [searchNode]
        by_cases hv : s <:+ v
        · rw [if_pos ((compare_iff hat hlen).mpr hv)]
          exact iff_of_true rfl ⟨v,.here hat hlen,hv⟩
        · have hdown : (∃ w, Holds buf w (.node (off,len) ch) ∧ s <:+ w) ↔
              ∃ e ∈ ch, e.1 = c ∧ ∃ w, Holds buf w e.2 ∧ s <:+ w := by
            constructor
            · rintro ⟨w,hw,hsw⟩
              cases hw with
              | here hat' hlen' => exact absurd (at_unique hat hat' (hlen.trans hlen'.symm) ▸ hsw) hv
              | child he hw =>
                refine ⟨_,he,?_,w,hw,hsw⟩
                have hlong := hw.path_prefix (hch _ he)
                have hshort : path ++ [c] <+: w.reverse := by
                  refine List.IsPrefix.trans ?_ (List.reverse_prefix.mpr hsw)
                  rw [hs]
                  exact ⟨cs,by simp⟩
                have heq := (List.prefix_of_prefix_length_le hlong hshort (by simp)).eq_of_length (by simp)
                simpa using heq
            · rintro ⟨e,he,-,w,hw,hsw⟩
              exact ⟨w,.child he hw,hsw⟩
          rw [if_neg fun h => hv ((compare_iff hat hlen).mp h),hdown]
          cases hget : SortedMap.get ch c with
          | none =>
            refine iff_of_false (by simp) ?_
            rintro ⟨e,he,hc,-⟩
            exact SortedMap.get_eq_none.mp hget e he hc
          | some child =>
            have hmem := SortedMap.mem_of_get hget
            have hiff := ih (hch _ hmem) (hchildren _ hmem) (by rw [hs]; simp)
            simp only [Option.map_eq_none_iff,hiff]
            constructor
            · rintro ⟨w,hw,hsw⟩
              exact ⟨_,hmem,rfl,w,hw,hsw⟩
            · rintro ⟨⟨_,x⟩,he,rfl,w,hw,hsw⟩
              have hx : x = child := Option.some.inj ((hsorted.1.get_of_mem he).symm.trans hget)
              exact ⟨w,hx ▸ hw,hsw⟩

theorem Holds.mono {buf' : List UInt8} (h : Holds buf w t) (hle : buf <+: buf') : Holds buf' w t := by
  induction h with
  | here hat hlen => exact .here (hat.mono hle) hlen
  | child he _ ih => exact .child he ih

theorem Holds.of_mono {buf' : List UInt8} (h : Holds buf' w t) (ht : ValidNode buf path t) (hle : buf <+: buf') :
    Holds buf w t := by
  induction h generalizing path with
  | here hat hlen =>
    cases ht with
    | node v hat' hlen' _ _ =>
      have heq := at_unique (hat'.mono hle) hat (hlen'.trans hlen.symm)
      exact .here (heq ▸ hat') hlen
  | child he _ ih =>
    cases ht with
    | node _ _ _ _ hch => exact .child he (ih (hch _ he))

/-- The nodes with the new string hold this string and those from before. -/
theorem searchNode_some_iff {cs : List UInt8} {t' : StrbufNode} (ht : ValidNode buf path t) (ho : Children t)
    (hr : (searchNode buf s cs t).2 = some t') :
    Holds (buf ++ s ++ [0]) w t' ↔ w = s ∨ Holds buf w t := by
  have hle : buf <+: buf ++ s ++ [0] := ⟨s ++ [0],by simp⟩
  induction cs generalizing path t t' with
  | nil => cases t; cases hr
  | cons c cs ih =>
    cases ht with
    | @node _ off len ch v hat hlen hpath hch =>
      cases ho with
      | node hsorted hchildren =>
        have hhere : At (buf ++ s ++ [0]) off w ∧ w.length = len ↔ At buf off w ∧ w.length = len := by
          refine and_congr_left fun hlen' => ⟨fun hat' => ?_,fun hat' => hat'.mono hle⟩
          exact at_unique (hat.mono hle) hat' (hlen.trans hlen'.symm) ▸ hat
        have hother : ∀ e ∈ ch, Holds (buf ++ s ++ [0]) w e.2 ↔ Holds buf w e.2 := fun e he =>
          ⟨fun h => h.of_mono (hch e he) hle,fun h => h.mono hle⟩
        rw [searchNode] at hr
        split_ifs at hr
        cases hget : SortedMap.get ch c with
        | none =>
          have hnew : Holds (buf ++ s ++ [0]) w (.node (buf.length,s.length) []) ↔ w = s := by
            rw [holds_node]
            simp only [List.not_mem_nil,false_and,exists_false,or_false]
            exact ⟨fun h => at_unique h.1 (at_end buf s) h.2,fun h => h ▸ ⟨at_end buf w,rfl⟩⟩
          rw [hget] at hr
          obtain rfl := Option.some.inj hr
          simp only [holds_node,hhere,SortedMap.mem_insert,exists_eq_or_imp,hnew]
          rw [or_left_comm,exists_congr fun e => and_congr_right (hother e)]
        | some child =>
          have hmem := SortedMap.mem_of_get hget
          rw [hget] at hr
          obtain ⟨t'',hr',rfl⟩ := Option.map_eq_some_iff.mp hr
          have hiff := ih (hch _ hmem) (hchildren _ hmem) hr'
          simp only [holds_node,hhere]
          rw [or_left_comm]
          refine or_congr_right ⟨?_,?_⟩
          · rintro ⟨e,he,h⟩
            rcases SortedMap.mem_set he with rfl | he
            · exact (hiff.mp h).imp_right fun h => ⟨_,hmem,h⟩
            · exact Or.inr ⟨e,he,(hother e he).mp h⟩
          · intro h
            have hset : ∀ e ∈ ch, (if e.1 = c then (c,t'') else e) ∈ SortedMap.set ch c t'' := fun e he =>
              List.mem_map_of_mem he
            rcases h with rfl | ⟨e,he,h⟩
            · exact ⟨_,hset _ hmem,by simpa using hiff.mpr (Or.inl rfl)⟩
            · refine ⟨_,hset e he,?_⟩
              by_cases hc : e.1 = c
              · have hchild : e.2 = child :=
                  Option.some.inj (((hc ▸ hsorted.1.get_of_mem he : SortedMap.get ch c = some e.2)).symm.trans hget)
                rw [if_pos hc]
                exact hiff.mpr (Or.inr (hchild ▸ h))
              · rw [if_neg hc]
                exact (hother e he).mpr h

theorem searchNode_children {cs : List UInt8} {t' : StrbufNode} (ht : Children t) (h0 : 0 ∉ cs)
    (hr : (searchNode buf s cs t).2 = some t') : Children t' := by
  induction cs generalizing t t' with
  | nil => cases t; cases hr
  | cons c cs ih =>
    obtain ⟨hc,hcs⟩ := List.ne_and_not_mem_of_not_mem_cons h0
    cases ht with
    | @node data ch hsorted hchildren =>
      rw [searchNode] at hr
      split_ifs at hr
      cases hget : SortedMap.get ch c with
      | none =>
        rw [hget] at hr
        obtain rfl := Option.some.inj hr
        refine .node ⟨hsorted.1.insert hget _,?_⟩ ?_
        · intro e he
          rcases SortedMap.mem_insert.mp he with rfl | he
          · exact hc.symm
          · exact hsorted.2 e he
        · intro e he
          rcases SortedMap.mem_insert.mp he with rfl | he
          · exact .node ⟨List.Pairwise.nil,by simp⟩ (by simp)
          · exact hchildren e he
      | some child =>
        have hmem := SortedMap.mem_of_get hget
        rw [hget] at hr
        obtain ⟨t'',hr',rfl⟩ := Option.map_eq_some_iff.mp hr
        refine .node ⟨hsorted.1.set _ _,?_⟩ ?_
        · intro e he
          rcases SortedMap.mem_set he with rfl | he
          · exact hc.symm
          · exact hsorted.2 e he
        · intro e he
          rcases SortedMap.mem_set he with rfl | he
          · exact ih (hchildren _ hmem) hcs hr'
          · exact hchildren e he

end Search

theorem Children.ordered {t : StrbufNode} (h : Children t) : Ordered t := h.imp fun _ _ hnode => hnode.1

theorem strbufAddString_eq {str : Store} (h : Children str.root) (s : CString) :
    (strbufAddString str s).1 = (addString str.strbuf s).1 ∧
      (strbufAddString str s).2.strbuf = (addString str.strbuf s).2 := by
  unfold strbufAddString addString
  split_ifs
  · exact ⟨rfl,rfl⟩
  · simp only [searchTail_eq h.ordered,Store.strbuf]
    rcases searchNode str.buf s s.reverse str.root with ⟨off,_ | root⟩
    · exact ⟨rfl,rfl⟩
    · exact ⟨rfl,rfl⟩

/-- The nodes hold strings that were added, and every string that was added is the tail of
one that a node holds. -/
structure Stores (added : List CString) (str : Store) : Prop where
  valid : Valid str.strbuf
  children : Children str.root
  held : ∀ w, Holds str.buf w str.root → w = [] ∨ w ∈ added
  tails : ∀ w ∈ added, ∃ v, Holds str.buf v str.root ∧ w <:+ v

theorem stores_strbufNew : Stores [] strbufNew where
  valid := valid_strbufNew
  children := .node ⟨List.Pairwise.nil,by simp⟩ (by simp)
  held := by
    rintro w (⟨hat,hlen⟩ | ⟨he,_⟩)
    · exact Or.inl (List.length_eq_zero_iff.mp hlen)
    · cases he
  tails := by simp

section Add

variable {added : List CString} {str : Store} {s : CString}

theorem Stores.searchNode_none_iff (h : Stores added str) (hs : s ≠ []) :
    (searchNode str.buf s s.reverse str.root).2 = none ↔ ∃ w ∈ added, s <:+ w := by
  have hroot : ValidNode str.buf [] str.root := h.valid.root
  rw [StringStore.searchNode_none_iff hroot h.children (List.nil_append _).symm]
  constructor
  · rintro ⟨w,hw,hsw⟩
    rcases h.held w hw with rfl | hmem
    · exact absurd (List.suffix_nil.mp hsw) hs
    · exact ⟨w,hmem,hsw⟩
  · rintro ⟨w,hw,hsw⟩
    obtain ⟨v,hv,hwv⟩ := h.tails w hw
    exact ⟨v,hv,hsw.trans hwv⟩

/-- A string that is no tail of an earlier one is appended, and otherwise nothing is written. -/
theorem Stores.strbuf_add (h : Stores added str) (hs : s ≠ []) :
    (∃ w ∈ added, s <:+ w) ∧ (strbufAddString str s).2.strbuf = str.strbuf ∨
      (¬∃ w ∈ added, s <:+ w) ∧ ∃ root, (searchNode str.buf s s.reverse str.root).2 = some root ∧
        (strbufAddString str s).2.strbuf = ⟨str.buf ++ s ++ [0],root⟩ := by
  have hadd : (addString str.strbuf s).2 =
      (searchNode str.buf s s.reverse str.root).2.elim str.strbuf fun root => ⟨str.buf ++ s ++ [0],root⟩ :=
    congrArg Prod.snd (if_neg hs)
  rw [(strbufAddString_eq h.children s).2,← h.searchNode_none_iff hs,hadd]
  cases (searchNode str.buf s s.reverse str.root).2 with
  | none => exact Or.inl ⟨rfl,rfl⟩
  | some root => exact Or.inr ⟨by simp,root,rfl,rfl⟩

theorem Stores.add (h : Stores added str) (hs : 0 ∉ s) :
    Stores (added ++ [s]) (strbufAddString str s).2 ∧
      At (strbufAddString str s).2.buf (strbufAddString str s).1 s ∧ str.buf <+: (strbufAddString str s).2.buf := by
  obtain ⟨heq₁,heq₂⟩ := strbufAddString_eq h.children s
  have hspec := addString_spec h.valid s
  rw [← heq₁,← heq₂] at hspec
  refine ⟨?_,hspec.2⟩
  have hlast : ∀ w, w ∈ added ++ [s] ↔ w ∈ added ∨ w = s := fun w => by simp
  by_cases hnil : s = []
  · have hsame : (strbufAddString str s).2 = str := by rw [strbufAddString,if_pos hnil]
    rw [hsame]
    refine ⟨h.valid,h.children,fun w hw => (h.held w hw).imp_right fun hw => (hlast w).mpr (Or.inl hw),?_⟩
    intro w hw
    rcases (hlast w).mp hw with hw | rfl
    · exact h.tails w hw
    · cases hroot : str.root with
      | node data ch =>
        have hvalid : ValidNode str.buf [] str.root := h.valid.root
        rw [hroot] at hvalid
        cases hvalid with
        | node v hat hlen _ _ => exact ⟨v,.here hat hlen,hnil ▸ List.nil_suffix⟩
  · rcases h.strbuf_add hnil with ⟨⟨w,hw,hsw⟩,heq⟩ | ⟨-,root,hr,heq⟩
    · have hbuf : (strbufAddString str s).2.buf = str.buf := congrArg Strbuf.buf heq
      have hroot : (strbufAddString str s).2.root = str.root := congrArg Strbuf.root heq
      refine ⟨hspec.1,hroot ▸ h.children,?_,?_⟩
      · intro v hv
        rw [hbuf,hroot] at hv
        exact (h.held v hv).imp_right fun hv => (hlast v).mpr (Or.inl hv)
      · intro v hv
        rw [hbuf,hroot]
        rcases (hlast v).mp hv with hv | rfl
        · exact h.tails v hv
        · obtain ⟨x,hx,hwx⟩ := h.tails w hw
          exact ⟨x,hx,hsw.trans hwx⟩
    · have hbuf : (strbufAddString str s).2.buf = str.buf ++ s ++ [0] := congrArg Strbuf.buf heq
      have hroot : (strbufAddString str s).2.root = root := congrArg Strbuf.root heq
      have hiff : ∀ w, Holds (str.buf ++ s ++ [0]) w root ↔ w = s ∨ Holds str.buf w str.root := fun w =>
        searchNode_some_iff h.valid.root h.children hr
      refine ⟨hspec.1,hroot ▸ searchNode_children h.children (by simpa using hs) hr,?_,?_⟩
      · intro v hv
        rw [hbuf,hroot,hiff] at hv
        rcases hv with rfl | hv
        · exact Or.inr ((hlast v).mpr (Or.inr rfl))
        · exact (h.held v hv).imp_right fun hv => (hlast v).mpr (Or.inl hv)
      · intro v hv
        rw [hbuf,hroot]
        rcases (hlast v).mp hv with hv | rfl
        · obtain ⟨x,hx,hvx⟩ := h.tails v hv
          exact ⟨x,(hiff x).mpr (Or.inr hx),hvx⟩
        · exact ⟨v,(hiff v).mpr (Or.inl rfl),List.suffix_refl _⟩

end Add

/-- A sequence of calls of `strbuf_add_string`. -/
def addStrings (str : Store) (strings : List CString) : Store :=
  strings.foldl (fun str s => (strbufAddString str s).2) str

section Run

variable {added strings : List CString} {str : Store}

theorem Stores.addStrings (h : Stores added str) (hs : ∀ s ∈ strings, 0 ∉ s) :
    Stores (added ++ strings) (addStrings str strings) ∧ str.buf <+: (StringStore.addStrings str strings).buf := by
  induction strings generalizing added str with
  | nil => exact ⟨(List.append_nil added).symm ▸ h,List.prefix_refl _⟩
  | cons s strings ih =>
    obtain ⟨hstep,-,hle⟩ := h.add (hs s List.mem_cons_self)
    obtain ⟨hrest,hle'⟩ := ih hstep fun x hx => hs x (List.mem_cons_of_mem _ hx)
    rw [List.append_assoc] at hrest
    exact ⟨hrest,hle.trans hle'⟩

end Run

/-- Over every sequence of calls the buffer grows only at its end, by the strings that are
no tails of earlier ones; every string stays at its offset, and the children of every node
are strictly sorted. -/
theorem string_store {pre post : List CString} {s : CString} (hpre : ∀ w ∈ pre, 0 ∉ w) (hs : 0 ∉ s)
    (hpost : ∀ w ∈ post, 0 ∉ w) :
    let before := addStrings strbufNew pre
    let r := strbufAddString before s
    let later := addStrings r.2 post
    r.2.buf <+: later.buf ∧ At later.buf r.1 s ∧ cstr later.buf r.1 = s ∧
      (s ≠ [] → (∃ w ∈ pre, s <:+ w) ∧ r.2.buf = before.buf ∨
        (¬∃ w ∈ pre, s <:+ w) ∧ r.2.buf = before.buf ++ s ++ [0]) ∧
      (s = [] → r.1 = 0 ∧ r.2.buf = before.buf) ∧
      later.root.Forall fun _ children => children.Pairwise (·.1 < ·.1) ∧ children.length ≤ 255 := by
  intro before r later
  have hbefore : Stores pre before := (stores_strbufNew.addStrings hpre).1
  obtain ⟨hr,hat,-⟩ := hbefore.add hs
  obtain ⟨hlater,hle⟩ := hr.addStrings hpost
  have hat' := hat.mono hle
  refine ⟨hle,hat',hat'.cstr_eq hs,?_,?_,?_⟩
  · intro hnil
    refine (hbefore.strbuf_add hnil).imp ?_ ?_
    · rintro ⟨hw,heq⟩
      exact ⟨hw,congrArg Strbuf.buf heq⟩
    · rintro ⟨hw,root,-,heq⟩
      exact ⟨hw,congrArg Strbuf.buf heq⟩
  · intro hnil
    have hr : r = (0,before) := if_pos hnil
    exact ⟨congrArg Prod.fst hr,congrArg (·.2.buf) hr⟩
  · exact hlater.children.imp fun _ ch h => ⟨h.1,length_children_le h.1 h.2⟩

theorem string_store_tail :
    let before := addStrings strbufNew [str "abc"]
    let r := strbufAddString before (str "bc")
    let later := addStrings r.2 [str "xbc"]
    (∀ w ∈ [str "abc"], 0 ∉ w) ∧ 0 ∉ str "bc" ∧ (∀ w ∈ [str "xbc"], 0 ∉ w) ∧
    r.2.buf <+: later.buf ∧ At later.buf r.1 (str "bc") ∧ cstr later.buf r.1 = str "bc" ∧
      (str "bc" ≠ [] → (∃ w ∈ [str "abc"], str "bc" <:+ w) ∧ r.2.buf = before.buf ∨
        (¬∃ w ∈ [str "abc"], str "bc" <:+ w) ∧ r.2.buf = before.buf ++ str "bc" ++ [0]) ∧
      (str "bc" = [] → r.1 = 0 ∧ r.2.buf = before.buf) ∧
      later.root.Forall fun _ children => children.Pairwise (·.1 < ·.1) ∧ children.length ≤ 255 :=
  ⟨by decide,by decide,by decide,string_store (by decide) (by decide) (by decide)⟩

/-- The empty string is never written, although no string was added before. -/
theorem empty_string_not_written :
    (¬∃ w ∈ ([] : List CString), [] <:+ w) ∧
      (strbufAddString strbufNew []).2.buf.length ≠ strbufNew.buf.length+0+1 :=
  ⟨by simp,by decide⟩

end StringStore
end Udev
