import Udev.Strbuf

/-! The index of the hardware database in memory: a radix tree of the match patterns whose
strings are offsets into a string buffer. Read through the buffer it is a radix tree over
strings, and an insertion is an insertion there. -/
namespace Udev
namespace Hwdb

open RadixTree Strbuf

/-- `struct trie_node`: the offset of the prefix and those of the keys and values. -/
abbrev TrieNode := Tree UInt8 (ℕ × List (ℕ × ℕ))

structure Trie where
  root : TrieNode
  strings : Strbuf

/-- The index before the first file is read. -/
def trieNew : Trie := ⟨.node (0,[]) [],strbufNew⟩

/-- A `uint8_t` against a `char`, which is signed: a byte that is not ASCII is never equal. -/
def sameChar (c : UInt8) (s : UInt8) : Bool := c = s && c < 0x80

def byKey (buf : List UInt8) (values : List (ℕ × ℕ)) : List (CString × ℕ × ℕ) :=
  values.map fun e => (cstr buf e.1,e)

def addEntry (buf : List UInt8) (values : List (ℕ × ℕ)) (k v : ℕ) : List (ℕ × ℕ) :=
  match SortedMap.get (byKey buf values) (cstr buf k) with
  | some e => (SortedMap.set (byKey buf values) (cstr buf k) (e.1,v)).map (·.2)
  | none => (SortedMap.insert (cstr buf k) (k,v) (byKey buf values)).map (·.2)

def trieNodeAddValue (strings : Strbuf) (values : List (ℕ × ℕ)) (key value : CString) :
    Strbuf × List (ℕ × ℕ) :=
  let k := strings.addString key
  let v := k.2.addString value
  (v.2,addEntry v.2.buf values k.1 v.1)

/-- The split of a node at place `p` of its prefix. -/
def splitNode (strings : Strbuf) (p : ℕ) : TrieNode → Strbuf × TrieNode
  | .node (prefixOff,values) children =>
    match (cstr strings.buf prefixOff).drop p with
    | [] => (strings,.node (prefixOff,values) children)
    | c::_ =>
      let s := strings.addString ((cstr strings.buf prefixOff).take p)
      (s.2,.node (s.1,[]) [(c,.node (prefixOff+p+1,values) children)])

/-- The loop of `trie_insert` on a node and the rest of the pattern. -/
def insertLoop (key value : CString) : ℕ → Strbuf → TrieNode → CString → Strbuf × TrieNode
  | 0, strings, node, _ => (strings,node)
  | n+1, strings, node, search =>
    let p := common sameChar (cstr strings.buf node.data.1) search
    match splitNode strings p node, search.drop p with
    | (strings,.node (off,values) children), [] =>
      let r := trieNodeAddValue strings values key value
      (r.1,.node (off,r.2) children)
    | (strings,.node data children), c::rest =>
      match SortedMap.get children c with
      | none =>
        let s := strings.addString rest
        let r := trieNodeAddValue s.2 [] key value
        (r.1,.node data (SortedMap.insert c (.node (s.1,r.2) []) children))
      | some child =>
        let r := insertLoop key value n strings child rest
        (r.1,.node data (SortedMap.set children c r.2))

/-- `trie_insert`; every round but the last takes a character of the pattern. -/
def trieInsert (trie : Trie) (search key value : CString) : Trie :=
  let r := insertLoop key value (search.length+1) trie.strings trie.root search
  ⟨r.2,r.1⟩

abbrev StringTree := Radix UInt8 (List (CString × CString))

def readValues (buf : List UInt8) (values : List (ℕ × ℕ)) : List (CString × CString) :=
  values.map fun e => (cstr buf e.1,cstr buf e.2)

def readData (buf : List UInt8) (data : ℕ × List (ℕ × ℕ)) : CString × List (CString × CString) :=
  (cstr buf data.1,readValues buf data.2)

def view (buf : List UInt8) (node : TrieNode) : StringTree := node.map (readData buf)

def Trie.tree (trie : Trie) : StringTree := view trie.strings.buf trie.root

def addValue (key value : CString) (l : List (CString × CString)) : List (CString × CString) :=
  match SortedMap.get l key with
  | some _ => SortedMap.set l key value
  | none => SortedMap.insert key value l

def ValuesOk (buf : List UInt8) (values : List (ℕ × ℕ)) : Prop :=
  ∀ e ∈ values, Terminated buf e.1 ∧ Terminated buf e.2

def Stored (buf : List UInt8) (data : ℕ × List (ℕ × ℕ)) : Prop := Terminated buf data.1 ∧ ValuesOk buf data.2

def NodeOk (buf : List UInt8) (node : TrieNode) : Prop := node.Forall fun data _ => Stored buf data

theorem nodeOk_node {buf : List UInt8} {data : ℕ × List (ℕ × ℕ)} {ch : List (UInt8 × TrieNode)} :
    NodeOk buf (.node data ch) ↔ Stored buf data ∧ ∀ e ∈ ch, NodeOk buf e.2 := by
  constructor
  · intro h
    cases h with
    | node hdata hch => exact ⟨hdata,hch⟩
  · exact fun h => .node h.1 h.2

section Grow

variable {buf buf' : List UInt8}

theorem ValuesOk.mono {values : List (ℕ × ℕ)} (h : ValuesOk buf values) (hle : buf <+: buf') :
    ValuesOk buf' values ∧ readValues buf' values = readValues buf values := by
  refine ⟨fun e he => ⟨((h e he).1.mono hle).1,((h e he).2.mono hle).1⟩,List.map_congr_left ?_⟩
  intro e he
  rw [((h e he).1.mono hle).2,((h e he).2.mono hle).2]

theorem Stored.mono {data : ℕ × List (ℕ × ℕ)} (h : Stored buf data) (hle : buf <+: buf') : Stored buf' data :=
  ⟨(h.1.mono hle).1,(h.2.mono hle).1⟩

theorem readData_mono {data : ℕ × List (ℕ × ℕ)} (h : Stored buf data) (hle : buf <+: buf') :
    readData buf' data = readData buf data := by
  unfold readData
  rw [(h.1.mono hle).2,(h.2.mono hle).2]

theorem NodeOk.mono {node : TrieNode} (h : NodeOk buf node) (hle : buf <+: buf') : NodeOk buf' node :=
  h.imp fun _ _ hdata => Stored.mono hdata hle

theorem view_mono {node : TrieNode} (h : NodeOk buf node) (hle : buf <+: buf') : view buf' node = view buf node :=
  Tree.map_congr (fun _ _ hdata => readData_mono hdata hle) h

end Grow

section Insert

theorem readValues_map {buf : List UInt8} {l : List (CString × ℕ × ℕ)} (h : ∀ e ∈ l, e.1 = cstr buf e.2.1) :
    readValues buf (l.map (·.2)) = SortedMap.mapValues (fun e => cstr buf e.2) l := by
  rw [readValues,List.map_map,SortedMap.mapValues]
  refine List.map_congr_left ?_
  intro e he
  rw [h e he]
  rfl

theorem mapValues_byKey (buf : List UInt8) (values : List (ℕ × ℕ)) :
    SortedMap.mapValues (fun e => cstr buf e.2) (byKey buf values) = readValues buf values := by
  rw [SortedMap.mapValues,byKey,List.map_map]
  rfl

theorem mem_byKey {buf : List UInt8} {values : List (ℕ × ℕ)} {e : CString × ℕ × ℕ} (h : e ∈ byKey buf values) :
    e.1 = cstr buf e.2.1 ∧ e.2 ∈ values := by
  obtain ⟨x,hx,rfl⟩ := List.mem_map.mp h
  exact ⟨rfl,hx⟩

theorem addEntry_spec {buf : List UInt8} {values : List (ℕ × ℕ)} {k v : ℕ} (hvalues : ValuesOk buf values)
    (hk : Terminated buf k) (hv : Terminated buf v) :
    ValuesOk buf (addEntry buf values k v) ∧
      readValues buf (addEntry buf values k v) = addValue (cstr buf k) (cstr buf v) (readValues buf values) := by
  have hold : ∀ e ∈ byKey buf values, e.1 = cstr buf e.2.1 ∧ Terminated buf e.2.1 ∧ Terminated buf e.2.2 :=
    fun e he => ⟨(mem_byKey he).1,hvalues _ (mem_byKey he).2⟩
  have hspec : ∀ l : List (CString × ℕ × ℕ),
      (∀ e ∈ l, e.1 = cstr buf e.2.1 ∧ Terminated buf e.2.1 ∧ Terminated buf e.2.2) →
      ValuesOk buf (l.map (·.2)) ∧ readValues buf (l.map (·.2)) = SortedMap.mapValues (fun e => cstr buf e.2) l := by
    intro l hl
    refine ⟨?_,readValues_map fun e he => (hl e he).1⟩
    intro x hx
    obtain ⟨e,he,rfl⟩ := List.mem_map.mp hx
    exact (hl e he).2
  unfold addEntry addValue
  rw [← mapValues_byKey buf values,SortedMap.get_mapValues]
  cases hget : SortedMap.get (byKey buf values) (cstr buf k) with
  | some e =>
    have hentry := hold _ (SortedMap.mem_of_get hget)
    obtain ⟨hok,hread⟩ := hspec (SortedMap.set (byKey buf values) (cstr buf k) (e.1,v)) (by
      intro x hx
      rcases SortedMap.mem_set hx with rfl | hx
      · exact ⟨hentry.1,hentry.2.1,hv⟩
      · exact hold x hx)
    exact ⟨hok,by rw [hread,SortedMap.mapValues_set]; rfl⟩
  | none =>
    obtain ⟨hok,hread⟩ := hspec (SortedMap.insert (cstr buf k) (k,v) (byKey buf values)) (by
      intro x hx
      rcases SortedMap.mem_insert.mp hx with rfl | hx
      · exact ⟨rfl,hk,hv⟩
      · exact hold x hx)
    exact ⟨hok,by rw [hread,SortedMap.mapValues_insert]; rfl⟩

structure Grows (strings strings' : Strbuf) : Prop where
  valid : strings'.Valid
  le : strings.buf <+: strings'.buf

variable {strings strings' strings'' : Strbuf} {key value : CString}

theorem Grows.trans (h : Grows strings strings') (h' : Grows strings' strings'') : Grows strings strings'' :=
  ⟨h'.valid,h.le.trans h'.le⟩

theorem grows_addString (hs : strings.Valid) {s : CString} (hnul : 0 ∉ s) :
    Grows strings (strings.addString s).2 ∧ Terminated (strings.addString s).2.buf (strings.addString s).1 ∧
      cstr (strings.addString s).2.buf (strings.addString s).1 = s := by
  obtain ⟨hvalid,hat,hle⟩ := addString_spec hs s
  exact ⟨⟨hvalid,hle⟩,hat.terminated hnul,hat.cstr_eq hnul⟩

theorem trieNodeAddValue_spec {values : List (ℕ × ℕ)} (hs : strings.Valid) (hvalues : ValuesOk strings.buf values)
    (hkey : 0 ∉ key) (hvalue : 0 ∉ value) {r : Strbuf × List (ℕ × ℕ)}
    (hr : trieNodeAddValue strings values key value = r) :
    Grows strings r.1 ∧ ValuesOk r.1.buf r.2 ∧
      readValues r.1.buf r.2 = addValue key value (readValues strings.buf values) := by
  subst hr
  obtain ⟨hgrowk,htermk,hk⟩ := grows_addString hs hkey
  obtain ⟨hgrowv,htermv,hv⟩ := grows_addString hgrowk.valid hvalue
  obtain ⟨htermk,hk'⟩ := htermk.mono hgrowv.le
  have hgrow := hgrowk.trans hgrowv
  obtain ⟨hok,hread⟩ := hvalues.mono hgrow.le
  obtain ⟨hok',hread'⟩ := addEntry_spec hok htermk htermv
  rw [hk',hk,hv,hread] at hread'
  exact ⟨hgrow,hok',hread'⟩

theorem splitNode_spec {node : TrieNode} (hs : strings.Valid) (hnode : NodeOk strings.buf node) (p : ℕ)
    {r : Strbuf × TrieNode} (hr : splitNode strings p node = r) :
    Grows strings r.1 ∧ NodeOk r.1.buf r.2 ∧ view r.1.buf r.2 = split [] p (view strings.buf node) := by
  obtain ⟨⟨off,values⟩,ch⟩ := node
  cases hnode with
  | node hdata hch =>
    have hview : view strings.buf (.node (off,values) ch) =
        .node (cstr strings.buf off,readValues strings.buf values) (SortedMap.mapValues (view strings.buf) ch) :=
      Tree.map_node _ _ _
    cases hdrop : (cstr strings.buf off).drop p with
    | nil =>
      rw [splitNode,hdrop] at hr
      subst hr
      refine ⟨⟨hs,List.prefix_refl _⟩,.node hdata hch,?_⟩
      rw [hview,split,hdrop]
    | cons c rest =>
      rw [splitNode,hdrop] at hr
      subst hr
      have hnul : 0 ∉ (cstr strings.buf off).take p := fun h => nul_notMem_cstr _ _ (List.mem_of_mem_take h)
      have hrest : 0 ∉ rest := by
        intro h
        have hmem : 0 ∈ (cstr strings.buf off).drop p := by rw [hdrop]; exact List.mem_cons_of_mem _ h
        exact nul_notMem_cstr _ _ (List.mem_of_mem_drop hmem)
      obtain ⟨hgrow,hterm,hcstr⟩ := grows_addString hs hnul
      have hcut : cstr strings.buf off = (cstr strings.buf off).take p ++ [c] ++ rest := by
        conv_lhs => rw [← List.take_append_drop p (cstr strings.buf off),hdrop]
        simp
      have hlen : ((cstr strings.buf off).take p ++ [c]).length = p+1 := by
        have hlt : p < (cstr strings.buf off).length := by
          by_contra hle
          rw [List.drop_eq_nil_of_le (by omega)] at hdrop
          cases hdrop
        simp only [List.length_append,List.length_take,List.length_singleton]
        omega
      have htail : At strings.buf (off+(p+1)) rest := by
        have hat : At strings.buf off (cstr strings.buf off) := hdata.1
        rw [hcut] at hat
        exact hlen ▸ hat.tail
      have hinner : NodeOk strings.buf (.node (off+p+1,values) ch) :=
        .node ⟨htail.terminated hrest,hdata.2⟩ hch
      refine ⟨hgrow,.node ⟨hterm,by simp [ValuesOk]⟩ ?_,?_⟩
      · intro e he
        rw [List.mem_singleton.mp he]
        exact hinner.mono hgrow.le
      · have hread : view (strings.addString ((cstr strings.buf off).take p)).2.buf (.node (off+p+1,values) ch) =
            .node (rest,readValues strings.buf values) (SortedMap.mapValues (view strings.buf) ch) := by
          rw [view_mono hinner hgrow.le]
          refine (Tree.map_node _ _ _).trans ?_
          rw [readData,Nat.add_assoc,htail.cstr_eq hrest]
          rfl
        rw [hview,split,hdrop]
        refine (Tree.map_node _ _ _).trans ?_
        rw [readData,hcstr,SortedMap.mapValues,List.map_singleton]
        exact congrArg (fun t => RadixTree.Tree.node _ [(c,t)]) hread

theorem view_node (buf : List UInt8) (data : ℕ × List (ℕ × ℕ)) (ch : List (UInt8 × TrieNode)) :
    view buf (.node data ch) = .node (readData buf data) (SortedMap.mapValues (view buf) ch) := Tree.map_node _ _ _

theorem mapValues_view_mono {buf buf' : List UInt8} {ch : List (UInt8 × TrieNode)}
    (h : ∀ e ∈ ch, NodeOk buf e.2) (hle : buf <+: buf') :
    SortedMap.mapValues (view buf') ch = SortedMap.mapValues (view buf) ch := by
  refine List.map_congr_left ?_
  intro e he
  rw [view_mono (h e he) hle]

theorem insertLoop_spec {node : TrieNode} {search : CString} {n : ℕ} (hkey : 0 ∉ key) (hvalue : 0 ∉ value)
    (hs : strings.Valid) (hnode : NodeOk strings.buf node) (hsearch : 0 ∉ search) (hn : search.length < n)
    {r : Strbuf × TrieNode} (hr : insertLoop key value n strings node search = r) :
    Grows strings r.1 ∧ NodeOk r.1.buf r.2 ∧
      view r.1.buf r.2 = RadixTree.insert sameChar [] (addValue key value) (view strings.buf node) search := by
  induction n generalizing strings node search r with
  | zero => omega
  | succ n ih =>
    obtain ⟨p,hp⟩ : ∃ p, common sameChar (cstr strings.buf node.data.1) search = p := ⟨_,rfl⟩
    have hp' : common sameChar (view strings.buf node).data.1 search = p := by
      obtain ⟨data,ch⟩ := node
      rw [view_node]
      exact hp
    obtain ⟨⟨strings₁,⟨off,values⟩,ch⟩,hsplit⟩ : ∃ r, splitNode strings p node = r := ⟨_,rfl⟩
    obtain ⟨hgrow,hok,hview⟩ := splitNode_spec hs hnode p hsplit
    rw [view_node,readData] at hview
    rw [insertLoop,hp] at hr
    obtain ⟨hdata,hch⟩ := nodeOk_node.mp hok
    cases hdrop : search.drop p with
    | nil =>
      simp only [hsplit,hdrop] at hr
      obtain ⟨hgrow',hvalues,hread⟩ := trieNodeAddValue_spec hgrow.valid hdata.2 hkey hvalue rfl
      have hle := hgrow'.le
      have hterm := hdata.1.mono hle
      subst hr
      refine ⟨hgrow.trans hgrow',nodeOk_node.mpr ⟨⟨hterm.1,hvalues⟩,fun e he => (hch e he).mono hle⟩,?_⟩
      rw [insert_here (by rw [hp',hview]) (by rw [hp',hdrop]),view_node,readData,hterm.2,hread,
        mapValues_view_mono hch hle]
    | cons c rest =>
      have hrest : 0 ∉ rest := by
        intro h
        exact hsearch (List.mem_of_mem_drop (i := p) (by rw [hdrop]; exact List.mem_cons_of_mem _ h))
      have hget : SortedMap.get (SortedMap.mapValues (view strings₁.buf) ch) c =
          (SortedMap.get ch c).map (view strings₁.buf) := SortedMap.get_mapValues _ _ _
      cases hchild : SortedMap.get ch c with
      | none =>
        simp only [hsplit,hdrop,hchild] at hr
        obtain ⟨hgrow₁,hterm₁,hcstr₁⟩ := grows_addString hgrow.valid hrest
        have hnone : ValuesOk (strings₁.addString rest).2.buf [] := by simp [ValuesOk]
        obtain ⟨hgrow₂,hvalues,hread⟩ := trieNodeAddValue_spec hgrow₁.valid hnone hkey hvalue rfl
        have hle := (hgrow₁.trans hgrow₂).le
        have hterm₂ := hterm₁.mono hgrow₂.le
        subst hr
        refine ⟨hgrow.trans (hgrow₁.trans hgrow₂),nodeOk_node.mpr ⟨Stored.mono hdata hle,?_⟩,?_⟩
        · intro e he
          rcases SortedMap.mem_insert.mp he with rfl | he
          · exact nodeOk_node.mpr ⟨⟨hterm₂.1,hvalues⟩,by simp⟩
          · exact (hch e he).mono hle
        · rw [hchild,Option.map_none] at hget
          have hleaf := view_node (trieNodeAddValue (strings₁.addString rest).2 [] key value).1.buf
            ((strings₁.addString rest).1,(trieNodeAddValue (strings₁.addString rest).2 [] key value).2) []
          rw [readData,hterm₂.2,hcstr₁,hread] at hleaf
          rw [insert_new (by rw [hp',hview]) (by rw [hp',hdrop]) hget,view_node,readData_mono hdata hle,
            SortedMap.mapValues_insert,mapValues_view_mono hch hle,hleaf]
          rfl
      | some child =>
        simp only [hsplit,hdrop,hchild] at hr
        have hlen : rest.length < n := by
          have hcut := congrArg List.length hdrop
          rw [List.length_drop,List.length_cons] at hcut
          omega
        have hchildok := hch _ (SortedMap.mem_of_get hchild)
        obtain ⟨hgrow',hok',hview'⟩ := ih hgrow.valid hchildok hrest hlen rfl
        have hle := hgrow'.le
        subst hr
        refine ⟨hgrow.trans hgrow',nodeOk_node.mpr ⟨Stored.mono hdata hle,?_⟩,?_⟩
        · intro e he
          rcases SortedMap.mem_set he with rfl | he
          · exact hok'
          · exact (hch e he).mono hle
        · rw [hchild,Option.map_some] at hget
          rw [insert_child (by rw [hp',hview]) (by rw [hp',hdrop]) hget,view_node,readData_mono hdata hle,
            SortedMap.mapValues_set,mapValues_view_mono hch hle,hview']
          rfl

structure Trie.Valid (trie : Trie) : Prop where
  strings : trie.strings.Valid
  root : NodeOk trie.strings.buf trie.root

theorem valid_trieNew : trieNew.Valid :=
  ⟨valid_strbufNew,nodeOk_node.mpr ⟨⟨⟨[],rfl⟩,by simp [ValuesOk]⟩,by simp⟩⟩

theorem trieInsert_spec {trie : Trie} (h : trie.Valid) {search key value : CString} (hsearch : 0 ∉ search)
    (hkey : 0 ∉ key) (hvalue : 0 ∉ value) :
    (trieInsert trie search key value).Valid ∧
      (trieInsert trie search key value).tree =
        RadixTree.insert sameChar [] (addValue key value) trie.tree search := by
  obtain ⟨hgrow,hok,hview⟩ :=
    insertLoop_spec hkey hvalue h.strings h.root hsearch (Nat.lt_succ_self search.length) rfl
  exact ⟨⟨hgrow.valid,hok⟩,hview⟩

end Insert

end Hwdb
end Udev
