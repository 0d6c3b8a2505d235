import Udev.CString
import Mathlib.Data.List.TakeWhile
import Udev.RadixTree

/-! The string buffer: strings are stored one after the other with their terminators. A
string that is the tail of a stored one is not stored again; a trie over the strings from
their last characters on finds it. -/
namespace Udev

open RadixTree

/-- `struct strbuf_node`, with the offset and the length of its string. -/
abbrev StrbufNode := Tree UInt8 (ℕ × ℕ)

structure Strbuf where
  buf : List UInt8
  root : StrbufNode

namespace Strbuf

def cstr (buf : List UInt8) (off : ℕ) : CString := (buf.drop off).takeWhile (· ≠ 0)

def strbufNew : Strbuf := ⟨[0],.node (0,0) []⟩

/-- The loop of `strbuf_add_string` over the characters of `s` from the last one on: the
offset of the string, and the nodes with a new one if the string is to be stored. -/
def searchNode (buf : List UInt8) (s : CString) : List UInt8 → StrbufNode → ℕ × Option StrbufNode
  | [], .node (off,len) _ => (off+len-s.length,none)
  | c::cs, .node (off,len) ch =>
    if len ≥ s.length ∧ (buf.drop (off+len-s.length)).take s.length = s then (off+len-s.length,none)
    else
      match SortedMap.get ch c with
      | none => (buf.length,some (.node (off,len) (SortedMap.insert c (.node (buf.length,s.length) []) ch)))
      | some child =>
        let r := searchNode buf s cs child
        (r.1,r.2.map fun t => .node (off,len) (SortedMap.set ch c t))

/-- `strbuf_add_string`. -/
def addString (str : Strbuf) (s : CString) : ℕ × Strbuf :=
  if s = [] then (0,str)
  else
    let r := searchNode str.buf s s.reverse str.root
    (r.1,r.2.elim str fun root => ⟨str.buf ++ s ++ [0],root⟩)

example : (addString (addString strbufNew (str "abc")).2 (str "bc")).1 = 2 := by decide

/-- The string with its terminator is at the offset. -/
def At (buf : List UInt8) (off : ℕ) (s : CString) : Prop := ∃ rest, buf.drop off = s ++ 0::rest

section At

variable {buf : List UInt8} {off : ℕ} {s : CString}

theorem At.cstr_eq (h : At buf off s) (hs : 0 ∉ s) : cstr buf off = s := by
  obtain ⟨rest,hrest⟩ := h
  have hall : ∀ c ∈ s, decide (c ≠ 0) = true := by
    intro c hc
    simp only [decide_eq_true_eq]
    rintro rfl
    exact hs hc
  rw [cstr,hrest,List.takeWhile_append_of_pos hall]
  simp

theorem nul_notMem_cstr (buf : List UInt8) (off : ℕ) : 0 ∉ cstr buf off := by
  intro h
  simpa using List.mem_takeWhile_imp h

theorem At.lt (h : At buf off s) : off+s.length < buf.length := by
  obtain ⟨rest,hrest⟩ := h
  have hlen := congrArg List.length hrest
  rw [List.length_drop,List.length_append,List.length_cons] at hlen
  omega

theorem At.mono {buf' : List UInt8} (h : At buf off s) (hle : buf <+: buf') : At buf' off s := by
  have hlt := h.lt
  obtain ⟨rest,hrest⟩ := h
  obtain ⟨more,rfl⟩ := hle
  refine ⟨rest ++ more,?_⟩
  rw [List.drop_append_of_le_length (by omega),hrest,List.append_assoc,List.cons_append]

theorem At.tail {u : CString} (h : At buf off (u ++ s)) : At buf (off+u.length) s := by
  obtain ⟨rest,hrest⟩ := h
  refine ⟨rest,?_⟩
  rw [← List.drop_drop,hrest,List.append_assoc,List.drop_left]

theorem at_end (buf : List UInt8) (s : CString) : At (buf ++ s ++ [0]) buf.length s :=
  ⟨[],by rw [List.append_assoc,List.drop_left]⟩

end At

def Terminated (buf : List UInt8) (off : ℕ) : Prop := At buf off (cstr buf off)

theorem At.terminated {buf : List UInt8} {off : ℕ} {s : CString} (h : At buf off s) (hs : 0 ∉ s) :
    Terminated buf off := by
  unfold Terminated
  rw [h.cstr_eq hs]
  exact h

theorem Terminated.mono {buf buf' : List UInt8} {off : ℕ} (h : Terminated buf off) (hle : buf <+: buf') :
    Terminated buf' off ∧ cstr buf' off = cstr buf off := by
  have hat := At.mono h hle
  exact ⟨hat.terminated (nul_notMem_cstr _ _),hat.cstr_eq (nul_notMem_cstr _ _)⟩

/-- A node is reached by the last characters of its string. -/
inductive ValidNode (buf : List UInt8) : List UInt8 → StrbufNode → Prop
  | node {path : List UInt8} {off len : ℕ} {ch : List (UInt8 × StrbufNode)} (s : CString) (hat : At buf off s)
      (hlen : s.length = len) (hpath : path <+: s.reverse) (hch : ∀ e ∈ ch, ValidNode buf (path ++ [e.1]) e.2) :
      ValidNode buf path (.node (off,len) ch)

structure Valid (str : Strbuf) : Prop where
  nil : At str.buf 0 []
  root : ValidNode str.buf [] str.root

theorem valid_strbufNew : Valid strbufNew :=
  ⟨⟨[],rfl⟩,.node [] ⟨[],rfl⟩ rfl (List.prefix_refl _) (by simp)⟩

theorem ValidNode.mono {buf buf' path : List UInt8} {t : StrbufNode} (h : ValidNode buf path t)
    (hle : buf <+: buf') : ValidNode buf' path t := by
  induction h with
  | node s hat hlen hpath _ ih => exact .node s (hat.mono hle) hlen hpath ih

section Search

variable {buf : List UInt8} {s : CString}

theorem at_of_suffix {off len : ℕ} {w : CString} (hat : At buf off w) (hlen : w.length = len) (hs : s <:+ w) :
    At buf (off+len-s.length) s := by
  obtain ⟨u,rfl⟩ := hs
  rw [List.length_append] at hlen
  have hoff : off+len-s.length = off+u.length := by omega
  rw [hoff]
  exact hat.tail

theorem searchNode_spec {cs path : List UInt8} {t : StrbufNode} (ht : ValidNode buf path t)
    (hs : s.reverse = path ++ cs) :
    (searchNode buf s cs t).2.elim (At buf (searchNode buf s cs t).1 s) fun t' =>
      (searchNode buf s cs t).1 = buf.length ∧ ValidNode (buf ++ s ++ [0]) path t' := by
  have hle : buf <+: buf ++ s ++ [0] := ⟨s ++ [0],by simp⟩
  induction cs generalizing path t with
  | nil =>
    cases ht with
    | node w hat hlen hpath _ =>
      rw [List.append_nil] at hs
      exact at_of_suffix hat hlen (List.reverse_prefix.mp (hs ▸ hpath))
  | cons c cs ih =>
    cases ht with
    | @node _ off len ch w hat hlen hpath hch =>
      rw [searchNode]
      by_cases hcmp : len ≥ s.length ∧ (buf.drop (off+len-s.length)).take s.length = s
      · rw [if_pos hcmp]
        refine at_of_suffix hat hlen ?_
        obtain ⟨rest,hrest⟩ := hat
        have hdrop : buf.drop (off+len-s.length) = w.drop (w.length-s.length) ++ 0::rest := by
          have hoff : off+len-s.length = off+(w.length-s.length) := by omega
          rw [hoff,← List.drop_drop,hrest,List.drop_append_of_le_length (by omega)]
        have hw : (w.drop (w.length-s.length)).length = s.length := by
          rw [List.length_drop]
          omega
        have hcopy := hcmp.2
        rw [hdrop,List.take_append_of_le_length hw.ge,List.take_of_length_le hw.le] at hcopy
        exact hcopy ▸ List.drop_suffix _ _
      · rw [if_neg hcmp]
        cases hget : SortedMap.get ch c with
        | none =>
          refine ⟨rfl,.node w (hat.mono hle) hlen hpath ?_⟩
          intro e he
          rcases SortedMap.mem_insert.mp he with rfl | he
          · exact .node s (at_end buf s) rfl ⟨cs,by rw [hs]; simp⟩ (by simp)
          · exact (hch e he).mono hle
        | some child =>
          have hchild := ih (hch _ (SortedMap.mem_of_get hget)) (by rw [hs]; simp)
          simp only
          cases hr : (searchNode buf s cs child).2 with
          | none =>
            rw [hr] at hchild
            exact hchild
          | some t' =>
            rw [hr] at hchild
            refine ⟨hchild.1,.node w (hat.mono hle) hlen hpath ?_⟩
            intro e he
            rcases SortedMap.mem_set he with rfl | he
            · exact hchild.2
            · exact (hch e he).mono hle

end Search

theorem addString_spec {str : Strbuf} (h : Valid str) (s : CString) :
    Valid (addString str s).2 ∧ At (addString str s).2.buf (addString str s).1 s ∧
      str.buf <+: (addString str s).2.buf := by
  unfold addString
  split_ifs with hnil
  · rw [hnil]
    exact ⟨h,h.nil,List.prefix_refl _⟩
  · have hspec := searchNode_spec (s := s) h.root (by simp : s.reverse = [] ++ s.reverse)
    have hle : str.buf <+: str.buf ++ s ++ [0] := ⟨s ++ [0],by simp⟩
    dsimp only
    cases hr : (searchNode str.buf s s.reverse str.root).2 with
    | none =>
      rw [hr] at hspec
      exact ⟨h,hspec,List.prefix_refl _⟩
    | some root =>
      rw [hr] at hspec
      rw [hspec.1]
      exact ⟨⟨h.nil.mono hle,hspec.2⟩,at_end str.buf s,hle⟩

end Strbuf
end Udev
