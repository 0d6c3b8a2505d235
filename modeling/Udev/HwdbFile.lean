import Udev.HwdbBuild
import Udev.Bytes
import Udev.Text

/-! The file of the hardware database: a header, the nodes of the index from the leaves to the
root, and the string buffer. The size of the nodes is computed before they are written, so
that their strings can be named by their places in the file. -/
namespace Udev
namespace Hwdb

open RadixTree Strbuf Bytes

def htole64 (n : ℕ) : List UInt8 := le 8 n

/-- `struct trie_node_f`. -/
def nodeF (prefixOff childrenCount valuesCount : ℕ) : List UInt8 :=
  htole64 prefixOff ++ ([UInt8.ofNat childrenCount,0,0,0,0,0,0,0] ++ htole64 valuesCount)

/-- `struct trie_child_entry_f`. -/
def childEntryF (e : UInt8 × ℕ) : List UInt8 := [e.1,0,0,0,0,0,0,0] ++ htole64 e.2

/-- `struct trie_value_entry_f`. -/
def valueEntryF (stringsOff : ℕ) (e : ℕ × ℕ) : List UInt8 :=
  htole64 (stringsOff+e.1) ++ htole64 (stringsOff+e.2)

mutual

/-- `trie_store_nodes_size`: what a node and those below it add to `strings_off`. -/
def trieStoreNodesSize : TrieNode → ℕ
  | .node (_,values) children => trieStoreChildrenSize children+(24+16*children.length+16*values.length)

def trieStoreChildrenSize : List (UInt8 × TrieNode) → ℕ
  | [] => 0
  | (_,t)::l => trieStoreNodesSize t+trieStoreChildrenSize l

end

mutual

/-- `trie_store_nodes` at a position of the file: what is written, and the offset of the node. -/
def trieStoreNodes (stringsOff pos : ℕ) : TrieNode → List UInt8 × ℕ
  | .node (prefixOff,values) children =>
    let r := trieStoreChildren stringsOff pos children
    (r.1 ++ (nodeF (stringsOff+prefixOff) children.length values.length ++
      (r.2.flatMap childEntryF ++ values.flatMap (valueEntryF stringsOff))),pos+r.1.length)

def trieStoreChildren (stringsOff pos : ℕ) : List (UInt8 × TrieNode) → List UInt8 × List (UInt8 × ℕ)
  | [] => ([],[])
  | (c,t)::l =>
    let r := trieStoreNodes stringsOff pos t
    let rs := trieStoreChildren stringsOff (pos+r.1.length) l
    (r.1 ++ rs.1,(c,r.2)::rs.2)

end

/-- `struct trie_header_f`, with the sizes of the records. -/
def headerF (toolVersion fileSize nodesRootOff nodesLen stringsLen : ℕ) : List UInt8 :=
  str "KSLPHHRH" ++ htole64 toolVersion ++ htole64 fileSize ++ htole64 80 ++ htole64 24 ++ htole64 16 ++
    htole64 16 ++ htole64 nodesRootOff ++ htole64 nodesLen ++ htole64 stringsLen

def stringsOff (trie : Trie) : ℕ := 80+trieStoreNodesSize trie.root

def trieStore (toolVersion : ℕ) (trie : Trie) : List UInt8 :=
  let r := trieStoreNodes (stringsOff trie) 80 trie.root
  headerF toolVersion (80+r.1.length+trie.strings.buf.length) r.2 r.1.length trie.strings.buf.length ++
    (r.1 ++ trie.strings.buf)

section Reader

variable (map : List UInt8)

def le64toh (off : ℕ) : Option ℕ := readLe 8 map off

/-- `node_size`, `child_entry_size` and `value_entry_size` of the header. -/
def nodeSize : Option ℕ := le64toh map 32

def childEntrySize : Option ℕ := le64toh map 40

def nodesRootOff : Option ℕ := le64toh map 56

def trieString (off : ℕ) : Option CString := if 0 ∈ map.drop off then some (cstr map off) else none

def childrenCount (node : ℕ) : Option ℕ := (map[node+8]?).map (·.toNat)

def valuesCount (node : ℕ) : Option ℕ := le64toh map (node+16)

def trieNodeChildren (node : ℕ) : Option ℕ := (nodeSize map).map (node+·)

def trieNodeValues (node : ℕ) : Option ℕ :=
  (nodeSize map).bind fun size => (childrenCount map node).bind fun n =>
    (childEntrySize map).map fun entry => node+size+n*entry

def nodePrefix (node : ℕ) : Option CString := (le64toh map node).bind (trieString map)

/-- Whether `prefix_off` of a node is there. -/
def nodeNamed (node : ℕ) : Option Bool := (le64toh map node).map (· ≠ 0)

def childEntry (off : ℕ) : Option (UInt8 × ℕ) :=
  (map[off]?).bind fun c => (le64toh map (off+8)).map fun child => (c,child)

def valueEntry (off : ℕ) : Option (CString × CString) :=
  ((le64toh map off).bind (trieString map)).bind fun key =>
    ((le64toh map (off+8)).bind (trieString map)).map fun value => (key,value)

def entries {γ : Type} (read : ℕ → Option γ) (base size : ℕ) : ℕ → Option (List γ)
  | 0 => some []
  | n+1 => (entries read base size n).bind fun l => (read (base+n*size)).map fun e => l ++ [e]

def nodeChildren (node : ℕ) : Option (List (UInt8 × ℕ)) :=
  (trieNodeChildren map node).bind fun base => (childrenCount map node).bind fun n =>
    (childEntrySize map).bind fun size => entries (childEntry map) base size n

def nodeValues (node : ℕ) : Option (List (CString × CString)) :=
  (trieNodeValues map node).bind fun base => (valuesCount map node).bind fun n =>
    entries (valueEntry map) base 16 n

/-- `node_lookup_f`: the offset of the child, `some none` if there is none. -/
def nodeLookupF (node : ℕ) (c : UInt8) : Option (Option ℕ) :=
  (nodeChildren map node).map fun l => SortedMap.get l c

def readChildren (read : ℕ → Option StringTree) : List (UInt8 × ℕ) → Option (List (UInt8 × StringTree))
  | [] => some []
  | e::l => (read e.2).bind fun t => (readChildren read l).map fun l => (e.1,t)::l

/-- The tree below an offset as the accessors of the reader see it; every access is inside
the file. -/
def readTree : ℕ → ℕ → Option StringTree
  | 0, _ => none
  | fuel+1, node =>
    (nodePrefix map node).bind fun pre => (nodeValues map node).bind fun values =>
      (nodeChildren map node).bind fun children =>
        (readChildren (readTree fuel) children).map fun children => .node (pre,values) children

end Reader

section Size

variable (so : ℕ)

@[simp] theorem length_nodeF (a b c : ℕ) : (nodeF a b c).length = 24 := by simp [nodeF,htole64]

@[simp] theorem length_childEntryF (e : UInt8 × ℕ) : (childEntryF e).length = 16 := by simp [childEntryF,htole64]

@[simp] theorem length_valueEntryF (e : ℕ × ℕ) : (valueEntryF so e).length = 16 := by simp [valueEntryF,htole64]

theorem length_flatMap {γ : Type} {enc : γ → List UInt8} {size : ℕ} (h : ∀ e, (enc e).length = size) (l : List γ) :
    (l.flatMap enc).length = l.length*size := by
  induction l with
  | nil => simp
  | cons e l ih =>
    rw [List.flatMap_cons,List.length_append,h,ih,List.length_cons,Nat.succ_mul]
    omega

theorem trieStoreChildren_entries (pos : ℕ) (l : List (UInt8 × TrieNode)) :
    (trieStoreChildren so pos l).2.length = l.length := by
  induction l generalizing pos with
  | nil => rfl
  | cons e l ih => rw [trieStoreChildren]; simp [ih]

theorem trieStoreChildren_size {l : List (UInt8 × TrieNode)}
    (h : ∀ e ∈ l, ∀ pos, (trieStoreNodes so pos e.2).1.length = trieStoreNodesSize e.2) (pos : ℕ) :
    (trieStoreChildren so pos l).1.length = trieStoreChildrenSize l := by
  induction l generalizing pos with
  | nil => rfl
  | cons e l ih =>
    rw [trieStoreChildren,trieStoreChildrenSize,List.length_append,h e List.mem_cons_self,
      ih fun x hx => h x (List.mem_cons_of_mem _ hx)]

theorem trieStoreNodes_size (t : TrieNode) (pos : ℕ) :
    (trieStoreNodes so pos t).1.length = trieStoreNodesSize t := by
  induction t using Tree.induction generalizing pos with
  | h data children ih =>
    obtain ⟨off,values⟩ := data
    rw [trieStoreNodes,trieStoreNodesSize]
    simp only [List.length_append,length_nodeF,length_flatMap length_childEntryF,
      length_flatMap (length_valueEntryF so),trieStoreChildren_size so ih,trieStoreChildren_entries]
    omega

end Size

/-- The node at an offset of the file is that of a tree, and so are those below it. -/
inductive Rep (map : List UInt8) : ℕ → StringTree → Prop
  | node {off : ℕ} {pre : CString} {values : List (CString × CString)} {es : List (UInt8 × ℕ)}
      {ch : List (UInt8 × StringTree)} (hnamed : nodeNamed map off = some true)
      (hlead : nodePrefix map off = some pre)
      (hvalues : nodeValues map off = some values) (hes : nodeChildren map off = some es)
      (hlen : es.length = ch.length) (hkey : ∀ p ∈ es.zip ch, p.1.1 = p.2.1)
      (hch : ∀ p ∈ es.zip ch, Rep map p.1.2 p.2.2) : Rep map off (.node (pre,values) ch)

section Rep

variable {map : List UInt8}

theorem readChildren_zip {read : ℕ → Option StringTree} {es : List (UInt8 × ℕ)} {ch : List (UInt8 × StringTree)}
    (hlen : es.length = ch.length) (hkey : ∀ p ∈ es.zip ch, p.1.1 = p.2.1)
    (hread : ∀ p ∈ es.zip ch, read p.1.2 = some p.2.2) : readChildren read es = some ch := by
  induction es generalizing ch with
  | nil =>
    rw [List.length_eq_zero_iff.mp hlen.symm]
    rfl
  | cons e es ih =>
    cases ch with
    | nil => cases hlen
    | cons x ch =>
      have hhead : (e,x) ∈ (e::es).zip (x::ch) := List.mem_cons_self
      have hrest := ih (Nat.succ.inj hlen) (fun p hp => hkey p (List.mem_cons_of_mem _ hp))
        fun p hp => hread p (List.mem_cons_of_mem _ hp)
      rw [readChildren,hread _ hhead,hrest,hkey _ hhead]
      rfl

theorem exists_bound {γ : Type} {P : γ → ℕ → Prop} {l : List γ} (h : ∀ e ∈ l, ∃ n, ∀ m, n ≤ m → P e m) :
    ∃ n, ∀ m, n ≤ m → ∀ e ∈ l, P e m := by
  induction l with
  | nil => exact ⟨0,by simp⟩
  | cons x l ih =>
    obtain ⟨n₁,h₁⟩ := h x List.mem_cons_self
    obtain ⟨n₂,h₂⟩ := ih fun e he => h e (List.mem_cons_of_mem _ he)
    refine ⟨max n₁ n₂,?_⟩
    intro m hm e he
    rcases List.mem_cons.mp he with rfl | he
    · exact h₁ m (by omega)
    · exact h₂ m (by omega) e he

theorem Rep.readTree {off : ℕ} {t : StringTree} (h : Rep map off t) :
    ∃ n, ∀ m, n ≤ m → readTree map m off = some t := by
  induction h with
  | node _ hlead hvalues hes hlen hkey _ ih =>
    obtain ⟨n,hn⟩ := exists_bound ih
    refine ⟨n+1,?_⟩
    intro m hm
    obtain ⟨m,rfl⟩ : ∃ k, m = k+1 := ⟨m-1,by omega⟩
    rw [Hwdb.readTree,hlead,hvalues,hes]
    simp only [Option.bind_some,readChildren_zip hlen hkey (hn m (by omega)),Option.map_some]

theorem Rep.nodeLookupF {off : ℕ} {t : StringTree} (h : Rep map off t) (c : UInt8) :
    Hwdb.nodeLookupF map off c = some none ∧ SortedMap.get t.children c = none ∨
      ∃ o u, Hwdb.nodeLookupF map off c = some (some o) ∧ SortedMap.get t.children c = some u ∧ Rep map o u := by
  cases h with
  | node _ _ _ hes hlen hkey hch =>
    rw [Hwdb.nodeLookupF,hes,Option.map_some]
    rcases SortedMap.get_zip hlen hkey c with ⟨hnone,hnone'⟩ | ⟨p,hp,hsome,hsome'⟩
    · exact Or.inl ⟨by rw [hnone],hnone'⟩
    · exact Or.inr ⟨_,_,by rw [hsome],hsome',hch p hp⟩

end Rep

section Store

variable {map buf : List UInt8} {so : ℕ}

theorem entries_placed {γ δ : Type} {enc : γ → List UInt8} (dec : γ → δ) {read : ℕ → Option δ} {size base : ℕ}
    {l : List γ} (hsize : ∀ e, (enc e).length = size)
    (hread : ∀ e ∈ l, ∀ off, Placed map off (enc e) → read off = some (dec e))
    (hplaced : Placed map base (l.flatMap enc)) : entries read base size l.length = some (l.map dec) := by
  induction l using List.reverseRecOn with
  | nil => rfl
  | append_singleton l e ih =>
    rw [List.flatMap_append,placed_append,length_flatMap hsize,List.flatMap_singleton] at hplaced
    have hinit := ih (fun x hx => hread x (List.mem_append_left _ hx)) hplaced.1
    have hlast := hread e (by simp) _ hplaced.2
    rw [List.length_append,List.length_singleton,entries,hinit,Option.bind_some,hlast,Option.map_some,List.map_append]
    rfl

theorem trieString_of_at {off : ℕ} {s : CString} (h : At map off s) (hs : 0 ∉ s) : trieString map off = some s := by
  have hmem : 0 ∈ map.drop off := by
    obtain ⟨rest,hrest⟩ := h
    rw [hrest]
    simp
  rw [trieString,if_pos hmem,h.cstr_eq hs]

/-- The buffer is in the file, which is small enough for its offsets. -/
structure Holds (map buf : List UInt8) (so : ℕ) : Prop where
  pos : 0 < so
  strings : ∀ off s, At buf off s → At map (so+off) s
  small : map.length < 2^64
  nodeSize : nodeSize map = some 24
  childEntrySize : childEntrySize map = some 16

theorem Holds.number (h : Holds map buf so) {n pos : ℕ} (hn : n ≤ map.length) (hplaced : Placed map pos (htole64 n)) :
    le64toh map pos = some n := by
  have hsmall := h.small
  refine hplaced.readLe (by decide) ?_
  have hpow : (256 : ℕ)^8 = 2^64 := by decide
  omega

theorem Holds.offset (h : Holds map buf so) {off pos : ℕ} (hterm : Terminated buf off)
    (hplaced : Placed map pos (htole64 (so+off))) : le64toh map pos = some (so+off) := by
  have hlt := (h.strings off _ hterm).lt
  exact h.number (by omega) hplaced

theorem Holds.string (h : Holds map buf so) {off pos : ℕ} (hterm : Terminated buf off)
    (hplaced : Placed map pos (htole64 (so+off))) :
    (le64toh map pos).bind (trieString map) = some (cstr buf off) := by
  rw [h.offset hterm hplaced,Option.bind_some,trieString_of_at (h.strings off _ hterm) (nul_notMem_cstr _ _)]

theorem Holds.childEntry (h : Holds map buf so) {e : UInt8 × ℕ} (he : e.2 ≤ map.length) {pos : ℕ}
    (hplaced : Placed map pos (childEntryF e)) : childEntry map pos = some e := by
  obtain ⟨hc,hoff⟩ := placed_append.mp hplaced
  have hread : le64toh map (pos+8) = some e.2 := h.number he hoff
  rw [Hwdb.childEntry,hc.getElem?,hread]
  rfl

theorem Holds.valueEntry (h : Holds map buf so) {e : ℕ × ℕ} (hkey : Terminated buf e.1) (hvalue : Terminated buf e.2)
    {pos : ℕ} (hplaced : Placed map pos (valueEntryF so e)) :
    valueEntry map pos = some (cstr buf e.1,cstr buf e.2) := by
  obtain ⟨hfirst,hsecond⟩ := placed_append.mp hplaced
  have hlen : (htole64 (so+e.1)).length = 8 := length_le 8 _
  rw [hlen] at hsecond
  rw [Hwdb.valueEntry,h.string hkey hfirst,h.string hvalue hsecond]
  rfl

def Narrow (t : TrieNode) : Prop := t.Forall fun _ ch => ch.length < 256

theorem trieStoreNodes_off_le (t : TrieNode) {pos : ℕ} (hplaced : Placed map pos (trieStoreNodes so pos t).1) :
    (trieStoreNodes so pos t).2 ≤ map.length := by
  obtain ⟨⟨off,values⟩,ch⟩ := t
  rw [trieStoreNodes] at hplaced ⊢
  have hne : ∀ x y : List UInt8, x ++ (nodeF (so+off) ch.length values.length ++ y) ≠ [] := by
    intro x y h
    have hlen := congrArg List.length h
    rw [List.length_append,List.length_append,length_nodeF,List.length_nil] at hlen
    omega
  have hlen := hplaced.length_le (hne _ _)
  rw [List.length_append] at hlen
  dsimp only at hlen ⊢
  omega

theorem trieStoreChildren_rep {l : List (UInt8 × TrieNode)} {pos : ℕ}
    (hrep : ∀ e ∈ l, ∀ pos, Placed map pos (trieStoreNodes so pos e.2).1 →
      Rep map (trieStoreNodes so pos e.2).2 (view buf e.2))
    (hplaced : Placed map pos (trieStoreChildren so pos l).1) :
    (∀ e ∈ (trieStoreChildren so pos l).2, e.2 ≤ map.length) ∧
      ∀ p ∈ (trieStoreChildren so pos l).2.zip (SortedMap.mapValues (view buf) l),
        p.1.1 = p.2.1 ∧ Rep map p.1.2 p.2.2 := by
  induction l generalizing pos with
  | nil => exact ⟨by simp [trieStoreChildren],by simp [trieStoreChildren]⟩
  | cons e l ih =>
    obtain ⟨c,t⟩ := e
    rw [trieStoreChildren] at hplaced ⊢
    obtain ⟨hfirst,hrest⟩ := placed_append.mp hplaced
    obtain ⟨hle,hzip⟩ := ih (fun e he => hrep e (List.mem_cons_of_mem _ he)) hrest
    constructor
    · intro e he
      rcases List.mem_cons.mp he with rfl | he
      · exact trieStoreNodes_off_le t hfirst
      · exact hle e he
    · intro p hp
      rcases List.mem_cons.mp hp with rfl | hp
      · exact ⟨rfl,hrep (c,t) List.mem_cons_self pos hfirst⟩
      · exact hzip p hp

theorem rep_store (hmap : Holds map buf so) {t : TrieNode} (hok : NodeOk buf t) (hnarrow : Narrow t) {pos : ℕ}
    (hplaced : Placed map pos (trieStoreNodes so pos t).1) :
    Rep map (trieStoreNodes so pos t).2 (view buf t) := by
  induction t using Tree.induction generalizing pos with
  | h data ch ih =>
    obtain ⟨off,values⟩ := data
    obtain ⟨hdata,hch⟩ := nodeOk_node.mp hok
    cases hnarrow with
    | node hcount hnarrow =>
      rw [trieStoreNodes] at hplaced ⊢
      obtain ⟨node,hnode⟩ : ∃ node, pos+(trieStoreChildren so pos ch).1.length = node := ⟨_,rfl⟩
      obtain ⟨hchildren,hplaced⟩ := placed_append.mp hplaced
      rw [hnode] at hplaced ⊢
      obtain ⟨hnodeF,hplaced⟩ := placed_append.mp hplaced
      obtain ⟨hentries,hvalues⟩ := placed_append.mp hplaced
      rw [length_nodeF] at hentries hvalues
      rw [length_flatMap length_childEntryF,trieStoreChildren_entries] at hvalues
      obtain ⟨hle,hzip⟩ :=
        trieStoreChildren_rep (fun e he pos hplaced => ih e he (hch e he) (hnarrow e he) hplaced) hchildren
      obtain ⟨hprefixF,hrest⟩ := placed_append.mp hnodeF
      obtain ⟨hcountF,hvaluesF⟩ := placed_append.mp hrest
      have hlen8 : (htole64 (so+off)).length = 8 := length_le 8 _
      rw [hlen8] at hcountF hvaluesF
      have hcountread : childrenCount map node = some ch.length := by
        rw [childrenCount,hcountF.getElem?,Option.map_some,UInt8.toNat_ofNat']
        exact congrArg some (Nat.mod_eq_of_lt hcount)
      have hvaluesread : valuesCount map node = some values.length := by
        refine hmap.number ?_ hvaluesF
        by_cases hnil : values = []
        · simp [hnil]
        · have hbytes : (values.flatMap (valueEntryF so)).length = values.length*16 :=
            length_flatMap (length_valueEntryF so) values
          have hpos := List.length_pos_of_ne_nil hnil
          have hplace := hvalues.length_le (List.ne_nil_of_length_pos (by omega))
          omega
      have hreadvalues : nodeValues map node = some (readValues buf values) := by
        rw [nodeValues,trieNodeValues,hmap.nodeSize,hcountread,hmap.childEntrySize]
        simp only [Option.bind_some,Option.map_some,hvaluesread]
        exact entries_placed (fun e => (cstr buf e.1,cstr buf e.2)) (length_valueEntryF so)
          (fun e he pos hpos => hmap.valueEntry (hdata.2 e he).1 (hdata.2 e he).2 hpos) hvalues
      have hreadchildren : nodeChildren map node = some (trieStoreChildren so pos ch).2 := by
        rw [nodeChildren,trieNodeChildren,hmap.nodeSize,hcountread,hmap.childEntrySize]
        simp only [Option.bind_some,Option.map_some]
        have hread := entries_placed id length_childEntryF
          (fun e he pos hpos => hmap.childEntry (hle e he) hpos) hentries
        rwa [trieStoreChildren_entries,List.map_id] at hread
      have hlen : (trieStoreChildren so pos ch).2.length = (SortedMap.mapValues (view buf) ch).length := by
        rw [trieStoreChildren_entries,SortedMap.mapValues,List.length_map]
      have hnamed : nodeNamed map node = some true := by
        have hpos := hmap.pos
        have hne : so+off ≠ 0 := by omega
        rw [nodeNamed,hmap.offset hdata.1 hprefixF,Option.map_some,decide_eq_true hne]
      rw [view_node]
      exact .node hnamed (hmap.string hdata.1 hprefixF) hreadvalues hreadchildren hlen
        (fun p hp => (hzip p hp).1) fun p hp => (hzip p hp).2

end Store

section File

theorem length_of_increasing {l : List ℕ} (lo hi : ℕ) (hl : l.Pairwise (· < ·)) (hlo : ∀ x ∈ l, lo ≤ x)
    (hhi : ∀ x ∈ l, x < hi) : l.length ≤ hi-lo := by
  induction l generalizing lo with
  | nil => simp
  | cons x l ih =>
    obtain ⟨hx,hl⟩ := List.pairwise_cons.mp hl
    have hrest := ih (x+1) hl (fun y hy => hx y hy) fun y hy => hhi y (List.mem_cons_of_mem _ hy)
    have hlox := hlo x List.mem_cons_self
    have hxhi := hhi x List.mem_cons_self
    rw [List.length_cons]
    omega

/-- The children of a node are less than 256, since their bytes differ and none is `NUL`. -/
theorem length_children {γ : Type} {ch : List (UInt8 × γ)} (hsorted : SortedMap.Sorted ch)
    (hnul : ∀ e ∈ ch, e.1 ≠ 0) : ch.length < 256 := by
  have hincreasing : (ch.map fun e => e.1.toNat).Pairwise (· < ·) :=
    List.pairwise_map.mpr (hsorted.imp fun h => UInt8.lt_iff_toNat_lt.mp h)
  have hlen := length_of_increasing 1 256 hincreasing (by
      intro x hx
      obtain ⟨e,he,rfl⟩ := List.mem_map.mp hx
      have hne : e.1.toNat ≠ 0 := fun h => hnul e he (UInt8.toNat_inj.mp h)
      omega) (by
      intro x hx
      obtain ⟨e,he,rfl⟩ := List.mem_map.mp hx
      exact e.1.toNat_lt)
  rw [List.length_map] at hlen
  omega

variable {l : List Insertion}

theorem ordered_insertAll (hl : NulFree l) : Ordered (insertAll trieNew l).tree := by
  rw [(insertAll_spec valid_trieNew hl).2,tree_trieNew]
  exact ordered_insertStrings l

theorem narrow_insertAll (hl : NulFree l) : Narrow (insertAll trieNew l).root := by
  have hletters : Letters (· ≠ 0) (insertAll trieNew l).tree := by
    rw [(insertAll_spec valid_trieNew hl).2,tree_trieNew]
    refine letters_insertStrings ?_
    rintro r hr c hc rfl
    exact (hl r hr).1 hc
  refine (Tree.forall_of_map ((ordered_insertAll hl).and hletters)).imp ?_
  intro data ch hnode
  have hlen := length_children hnode.1 hnode.2.2
  rwa [SortedMap.mapValues,List.length_map] at hlen

variable (version : ℕ) (trie : Trie)

@[simp] theorem length_htole64 (n : ℕ) : (htole64 n).length = 8 := length_le 8 n

theorem length_headerF (a b c d e : ℕ) : (headerF a b c d e).length = 80 := by
  have hsig : (str "KSLPHHRH").length = 8 := by decide
  simp [headerF,hsig]

theorem length_trieStore : (trieStore version trie).length =
    80+((trieStoreNodes (stringsOff trie) 80 trie.root).1.length+trie.strings.buf.length) := by
  rw [trieStore,List.length_append,length_headerF,List.length_append]

theorem at_trieStore {off : ℕ} {s : CString} (h : At trie.strings.buf off s) :
    At (trieStore version trie) (stringsOff trie+off) s := by
  obtain ⟨rest,hrest⟩ := h
  refine ⟨rest,?_⟩
  have hlen : stringsOff trie = (headerF version
      (80+(trieStoreNodes (stringsOff trie) 80 trie.root).1.length+trie.strings.buf.length)
      (trieStoreNodes (stringsOff trie) 80 trie.root).2 (trieStoreNodes (stringsOff trie) 80 trie.root).1.length
      trie.strings.buf.length ++ (trieStoreNodes (stringsOff trie) 80 trie.root).1).length := by
    rw [List.length_append,length_headerF,trieStoreNodes_size]
    rfl
  rw [trieStore,← List.append_assoc,← List.drop_drop]
  nth_rewrite 1 [hlen]
  rw [List.drop_left,hrest]

theorem placed_header : Placed (trieStore version trie) 0 (headerF version
    (80+(trieStoreNodes (stringsOff trie) 80 trie.root).1.length+trie.strings.buf.length)
    (trieStoreNodes (stringsOff trie) 80 trie.root).2 (trieStoreNodes (stringsOff trie) 80 trie.root).1.length
    trie.strings.buf.length) := List.prefix_append _ _

theorem placed_nodes : Placed (trieStore version trie) 80 (trieStoreNodes (stringsOff trie) 80 trie.root).1 := by
  have hall : Placed (trieStore version trie) 0 (trieStore version trie) := List.prefix_refl _
  have hrest := (placed_append.mp hall).2
  rw [length_headerF] at hrest
  exact (placed_append.mp hrest).1

variable {version trie}

theorem holds_trieStore (hsmall : (trieStore version trie).length < 2^64) :
    Holds (trieStore version trie) trie.strings.buf (stringsOff trie) ∧
      le64toh (trieStore version trie) 16 = some (trieStore version trie).length ∧
      nodesRootOff (trieStore version trie) = some (trieStoreNodes (stringsOff trie) 80 trie.root).2 := by
  have hheader := placed_header version trie
  have hsig : (str "KSLPHHRH").length = 8 := by decide
  simp only [headerF,placed_append,List.length_append,hsig,length_htole64,Nat.zero_add,Nat.reduceAdd] at hheader
  obtain ⟨⟨⟨⟨⟨⟨⟨-,hfileSize⟩,-⟩,hnodeSize⟩,hentry⟩,-⟩,hroot⟩,-⟩ := hheader.1
  have hpow : (256 : ℕ)^8 = 2^64 := by decide
  have hlen := length_trieStore version trie
  have hoff := trieStoreNodes_off_le trie.root (placed_nodes version trie)
  refine ⟨⟨by rw [stringsOff]; omega,fun off s => at_trieStore version trie,hsmall,hnodeSize.readLe (by decide) (by decide),
    hentry.readLe (by decide) (by decide)⟩,?_,hroot.readLe (by decide) (by omega)⟩
  rw [hlen,← Nat.add_assoc]
  exact hfileSize.readLe (by decide) (by omega)

theorem rep_trieStore (hl : NulFree l) (hsmall : (trieStore version (insertAll trieNew l)).length < 2^64) :
    Rep (trieStore version (insertAll trieNew l))
      (trieStoreNodes (stringsOff (insertAll trieNew l)) 80 (insertAll trieNew l).root).2
      (insertAll trieNew l).tree :=
  rep_store (holds_trieStore hsmall).1 (insertAll_spec valid_trieNew hl).1.root (narrow_insertAll hl)
    (placed_nodes _ _)

end File

/-- The node that a path of bytes leads to, by `node_lookup_f`. -/
def followF (map : List UInt8) : ℕ → List UInt8 → Option (Option ℕ)
  | node, [] => some (some node)
  | node, c::cs =>
    (nodeLookupF map node c).bind fun
      | none => some none
      | some child => followF map child cs

def follow : StringTree → List UInt8 → Option StringTree
  | t, [] => some t
  | t, c::cs => (SortedMap.get t.children c).bind (follow · cs)

theorem Rep.follow {map : List UInt8} {off : ℕ} {t : StringTree} (h : Rep map off t) (path : List UInt8) :
    followF map off path = some none ∧ follow t path = none ∨
      ∃ o u, followF map off path = some (some o) ∧ follow t path = some u ∧ Rep map o u := by
  induction path generalizing off t with
  | nil => exact Or.inr ⟨off,t,rfl,rfl,h⟩
  | cons c cs ih =>
    rw [followF,Hwdb.follow]
    rcases h.nodeLookupF c with ⟨hnone,hnone'⟩ | ⟨o,u,hsome,hsome',hrep⟩
    · rw [hnone,hnone']
      exact Or.inl ⟨rfl,rfl⟩
    · rw [hsome,hsome']
      exact ih hrep

/-- The file of an index: the size pass is exact, so the strings are at their offsets, and the
reader sees the tree of the index, whole from the root and at every node that lookups reach. -/
theorem trieStore_readTree {l : List Insertion} (hl : NulFree l) {version : ℕ}
    (hsmall : (trieStore version (insertAll trieNew l)).length < 2^64) :
    (trieStoreNodes (stringsOff (insertAll trieNew l)) 80 (insertAll trieNew l).root).1.length =
      trieStoreNodesSize (insertAll trieNew l).root ∧
    (∀ off s, At (insertAll trieNew l).strings.buf off s →
      At (trieStore version (insertAll trieNew l)) (stringsOff (insertAll trieNew l)+off) s) ∧
    le64toh (trieStore version (insertAll trieNew l)) 16 =
      some (trieStore version (insertAll trieNew l)).length ∧
    Ordered (insertAll trieNew l).tree ∧
    ∃ root, nodesRootOff (trieStore version (insertAll trieNew l)) = some root ∧
      ∀ path,
        followF (trieStore version (insertAll trieNew l)) root path = some none ∧
          follow (insertAll trieNew l).tree path = none ∨
        ∃ node t, followF (trieStore version (insertAll trieNew l)) root path = some (some node) ∧
          follow (insertAll trieNew l).tree path = some t ∧
          ∃ n, ∀ m, n ≤ m → readTree (trieStore version (insertAll trieNew l)) m node = some t := by
  obtain ⟨-,hfileSize,hroot⟩ := holds_trieStore hsmall
  refine ⟨trieStoreNodes_size _ _ _,fun off s => at_trieStore _ _,hfileSize,ordered_insertAll hl,_,hroot,?_⟩
  intro path
  rcases (rep_trieStore hl hsmall).follow path with hnone | ⟨node,t,hnode,ht,hrep⟩
  · exact Or.inl hnone
  · exact Or.inr ⟨node,t,hnode,ht,hrep.readTree⟩

/-- Two patterns that part after some bytes, with values of the same text. -/
def usbRecords : List Insertion :=
  [(str "usb:v04F2*",str " ID_VENDOR",str "Chicony"),(str "usb:v04E8*",str " ID_VENDOR",str "Samsung"),
   (str "usb:v04F2*",str " ID_MODEL",str "Chicony")]

theorem trieStore_readTree_usb : ∃ root, nodesRootOff (trieStore 220 (insertAll trieNew usbRecords)) = some root ∧
    ∃ n, ∀ m, n ≤ m →
      readTree (trieStore 220 (insertAll trieNew usbRecords)) m root = some (insertAll trieNew usbRecords).tree := by
  have hsmall : (trieStore 220 (insertAll trieNew usbRecords)).length < 2^64 := by decide +kernel
  obtain ⟨-,-,-,-,root,hroot,hpath⟩ := trieStore_readTree (l := usbRecords) (by decide +kernel) hsmall
  refine ⟨root,hroot,?_⟩
  rcases hpath [] with ⟨hnone,-⟩ | ⟨node,t,hnode,ht,hread⟩
  · cases hnone
  · cases hnode
    cases ht
    exact hread

end Hwdb
end Udev
