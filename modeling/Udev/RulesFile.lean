import Udev.AddRule

/-! `parse_file` and `rules_load`: the rules files become one array of tokens. Every
rule of it is a block of a rule token and its keys, and a GOTO that was linked leads
forward to a rule of the same file. -/
namespace Udev
namespace Rules

open CString RuleLine Text StableSort

/-- The loop that joins lines at a backslash and newline: the line, the length that the
source keeps for it, and the rest of the file. -/
def continueLine : ℕ → CString → ℕ → List UInt8 → CString × ℕ × List UInt8
  | 0, line, len, rest => (line,len,rest)
  | n+1, line, len, rest =>
    if charAt line (len-2) ≠ chr '\\' then (line,len,rest)
    else
      match fgets (utilLineSize-len+2) rest with
      | none => (line,len,rest)
      | some (next,rest) =>
        let joined := line.take (len-2) ++ next
        if next.length < 2 then (joined,len,rest) else continueLine n joined joined.length rest

/-- The texts that the loop of `parse_file` passes to `add_rule`. -/
def ruleLines : ℕ → List UInt8 → List CString
  | 0, _ => []
  | n+1, s =>
    match fgets utilLineSize s with
    | none => []
    | some (line,rest) =>
      let key := (line.takeWhile isspace).length
      if charAt line key = chr '#' then ruleLines n rest
      else if line.length < 3 then ruleLines n rest
      else
        let r := continueLine (rest.length+1) line line.length rest
        if r.2.1+1 ≥ utilLineSize then ruleLines n r.2.2 else r.1.drop key::ruleLines n r.2.2

def fileLines (content : List UInt8) : List CString := ruleLines (content.length+1) content

/-- The index of the first rule with the label in the tokens from index `j` on, or 0. -/
def findLabel (label : CString) : ℕ → List Token → ℕ
  | _, [] => 0
  | j, .rule r::ts => if r.label ≠ [] ∧ r.label = label then j else findLabel label (j+1) ts
  | j, _::ts => findLabel label (j+1) ts

/-- Link the GOTOs in the tokens from index `i` on. -/
def linkGotos : ℕ → List Token → List Token
  | _, [] => []
  | i, .key k::ts =>
    .key (if k.type = .aGoto then { k with ruleGoto := findLabel k.value (i+1) ts } else k)::
      linkGotos (i+1) ts
  | i, t::ts => t::linkGotos (i+1) ts

def fileTokens (o : Options) (content : List UInt8) : List Token :=
  (fileLines content).flatMap fun line => (addRule o line).getD []

/-- A file that can not be opened adds nothing. The first token of a file is a rule, so
the links start at the one after it. -/
def parseFile (o : Options) (tokens : List Token) (file : Option (List UInt8)) : List Token :=
  file.elim tokens fun content =>
    let first := tokens.length
    let all := tokens ++ fileTokens o content
    all.take (first+1) ++ linkGotos (first+1) (all.drop (first+1))

def rulesLoad (o : Options) (files : List (Option (List UInt8))) : List Token :=
  files.foldl (parseFile o) [] ++ [.tkEnd]

def plainOptions : Options := { accounts := noAccounts }

set_option maxRecDepth 4000 in
example : (rulesLoad plainOptions
    [some (str "KERNEL==\"a\", GOTO=\"x\"\nLABEL=\"x\", NAME=\"b\"\n")]).length = 6 := by decide

structure Block where
  rule : RuleToken
  keys : List KeyToken
  deriving DecidableEq, Repr

def Block.tokens (b : Block) : List Token := .rule b.rule::b.keys.map .key

structure Block.WellFormed (b : Block) : Prop where
  count : b.rule.tokenCount = 1+b.keys.length
  sorted : b.keys.Pairwise fun x y => x.type.code ≤ y.type.code
  isKey : ∀ k ∈ b.keys, k.type.isKey = true
  env : ∀ k ∈ b.keys, k.type = .aEnv → k.attr ∉ envBlacklist

theorem addRule_block {o : Options} {line : CString} {ts : List Token} (h : addRule o line = some ts)
    (hlen : ts.length ≤ 1+maxTk) :
    ∃ b : Block, ts = b.tokens ∧ b.WellFormed ∧ ∀ k ∈ b.keys, k.ruleGoto = 0 := by
  obtain ⟨tmp,htmp,rfl⟩ := Option.map_eq_some_iff.mp h
  have hnew := addPairs_new htmp (by simp)
  have hsorts := sortToken_new hnew
  have hmem : ∀ k ∈ sortToken tmp.token, NewToken k := fun k hk => hnew k (hsorts.mem hk)
  have hl := sortToken_length tmp.token
  have hsmall : tmp.token.length ≤ maxTk := by simpa [ruleBlock,hl,Nat.add_comm] using hlen
  refine ⟨⟨_,sortToken tmp.token⟩,rfl,⟨?_,hsorts.sorted,fun k hk => (hmem k hk).isKey,
    fun k hk => (hmem k hk).env⟩,fun k hk => (hmem k hk).ruleGoto⟩
  rw [hl]
  refine Nat.mod_eq_of_lt ?_
  unfold maxTk at hsmall
  omega

theorem findLabel_spec (label : CString) (j : ℕ) (ts : List Token) (h : findLabel label j ts ≠ 0) :
    label ≠ [] ∧ ∃ n r, findLabel label j ts = j+n ∧ ts[n]? = some (.rule r) ∧ r.label = label ∧
      ∀ m < n, ∀ r', ts[m]? = some (.rule r') → r'.label ≠ label := by
  induction ts generalizing j with
  | nil => exact absurd rfl h
  | cons t ts ih =>
    have hnext : (label ≠ [] → ∀ r, t = .rule r → r.label ≠ label) →
        findLabel label j (t::ts) = findLabel label (j+1) ts →
        label ≠ [] ∧ ∃ n r, findLabel label j (t::ts) = j+n ∧ (t::ts)[n]? = some (.rule r) ∧
          r.label = label ∧ ∀ m < n, ∀ r', (t::ts)[m]? = some (.rule r') → r'.label ≠ label := by
      intro hhead heq
      obtain ⟨hne,n,r,hn,hr,hl,hfirst⟩ := ih (j+1) (heq ▸ h)
      refine ⟨hne,n+1,r,by rw [heq,hn]; omega,by simpa using hr,hl,fun m hm r' hr' => ?_⟩
      cases m with
      | zero => exact hhead hne r' (by simpa using hr')
      | succ m => exact hfirst m (by omega) r' (by simpa using hr')
    cases t with
    | rule r =>
      by_cases hl : r.label ≠ [] ∧ r.label = label
      · have heq : findLabel label j (.rule r::ts) = j := if_pos hl
        exact ⟨hl.2 ▸ hl.1,0,r,heq,by simp,hl.2,by simp⟩
      · refine hnext (fun hne r' hr' hlabel => ?_) (if_neg hl)
        cases hr'
        exact hl ⟨hlabel ▸ hne,hlabel⟩
    | key k => exact hnext (by simp) rfl
    | tkEnd => exact hnext (by simp) rfl

theorem linkGotos_rule (i : ℕ) (ts : List Token) (n : ℕ) (r : RuleToken) :
    (linkGotos i ts)[n]? = some (.rule r) ↔ ts[n]? = some (.rule r) := by
  induction ts generalizing i n with
  | nil => rfl
  | cons t ts ih =>
    cases n with
    | zero => cases t <;> simp [linkGotos]
    | succ n => cases t <;> simpa [linkGotos] using ih (i+1) n

theorem linkGotos_goto (i : ℕ) (ts : List Token) (hts : ∀ k, .key k ∈ ts → k.ruleGoto = 0) {m : ℕ}
    {k : KeyToken} (hk : (linkGotos i ts)[m]? = some (.key k)) (hg : k.ruleGoto ≠ 0) :
    ∃ n r, m < n ∧ k.ruleGoto = i+n ∧ ts[n]? = some (.rule r) ∧ r.label = k.value ∧
      ∀ l, m < l → l < n → ∀ r', ts[l]? = some (.rule r') → r'.label ≠ k.value := by
  induction ts generalizing i m with
  | nil => simp [linkGotos] at hk
  | cons t ts ih =>
    cases m with
    | zero =>
      cases t with
      | rule r => simp [linkGotos] at hk
      | tkEnd => simp [linkGotos] at hk
      | key k₀ =>
        simp only [linkGotos,List.getElem?_cons_zero,Option.some.injEq,Token.key.injEq] at hk
        split_ifs at hk with htype
        · subst hk
          obtain ⟨_,n,r,hn,hr,hl,hfirst⟩ := findLabel_spec k₀.value (i+1) ts hg
          refine ⟨n+1,r,by omega,by simp only [hn]; omega,by simpa using hr,hl,fun l hl₀ hln r' hr' => ?_⟩
          obtain ⟨l,rfl⟩ := Nat.exists_eq_succ_of_ne_zero (by omega : l ≠ 0)
          exact hfirst l (by omega) r' (by simpa using hr')
        · subst hk
          exact absurd (hts k₀ (by simp)) hg
    | succ m =>
      have hk' : (linkGotos (i+1) ts)[m]? = some (.key k) := by cases t <;> simpa [linkGotos] using hk
      obtain ⟨n,r,hmn,hn,hr,hl,hfirst⟩ := ih (i+1) (fun k hk => hts k (by simp [hk])) hk'
      refine ⟨n+1,r,by omega,by omega,by simpa using hr,hl,fun l hml hln r' hr' => ?_⟩
      obtain ⟨l,rfl⟩ := Nat.exists_eq_succ_of_ne_zero (by omega : l ≠ 0)
      exact hfirst l (by omega) (by omega) r' (by simpa using hr')

def unlink (k : KeyToken) : KeyToken := { k with ruleGoto := 0 }

theorem linkGotos_keys (i : ℕ) (ks : List KeyToken) (rest : List Token) :
    ∃ ks' : List KeyToken, linkGotos i (ks.map .key ++ rest) = ks'.map .key ++ linkGotos (i+ks.length) rest ∧
      ks'.map unlink = ks.map unlink := by
  induction ks generalizing i with
  | nil => exact ⟨[],rfl,rfl⟩
  | cons k ks ih =>
    obtain ⟨ks',hlink,hsame⟩ := ih (i+1)
    refine ⟨(if k.type = .aGoto then
      { k with ruleGoto := findLabel k.value (i+1) (ks.map .key ++ rest) } else k)::ks',?_,?_⟩
    · simp only [List.map_cons,List.cons_append,linkGotos,hlink,List.length_cons]
      rw [Nat.add_right_comm,Nat.add_assoc]
    · simp only [List.map_cons,hsame]
      split_ifs <;> rfl

theorem Block.WellFormed.relink {b : Block} (h : b.WellFormed) {ks : List KeyToken}
    (hks : ks.map unlink = b.keys.map unlink) : (Block.mk b.rule ks).WellFormed := by
  have hsame : ∀ k ∈ ks, ∃ k₀ ∈ b.keys, unlink k₀ = unlink k := fun k hk => by
    have : unlink k ∈ b.keys.map unlink := hks ▸ List.mem_map_of_mem hk
    simpa using this
  have htype : ∀ {k k₀ : KeyToken}, unlink k₀ = unlink k → k₀.type = k.type ∧ k₀.attr = k.attr :=
    fun h => ⟨congrArg (·.type) h,congrArg (·.attr) h⟩
  refine ⟨?_,?_,fun k hk => ?_,fun k hk he => ?_⟩
  · have := congrArg List.length hks
    simp at this
    rw [this]
    exact h.count
  · have hs : (b.keys.map unlink).Pairwise fun x y => x.type.code ≤ y.type.code :=
      List.pairwise_map.mpr h.sorted
    rw [← hks] at hs
    exact (List.pairwise_map (f := unlink)).mp hs
  · obtain ⟨k₀,hk₀,hu⟩ := hsame k hk
    rw [← (htype hu).1]
    exact h.isKey k₀ hk₀
  · obtain ⟨k₀,hk₀,hu⟩ := hsame k hk
    rw [← (htype hu).2]
    exact h.env k₀ hk₀ ((htype hu).1.trans he)

theorem linkGotos_blocks (i : ℕ) (bs : List Block) (hbs : ∀ b ∈ bs, b.WellFormed) :
    ∃ bs' : List Block, linkGotos i (bs.flatMap Block.tokens) = bs'.flatMap Block.tokens ∧
      ∀ b ∈ bs', b.WellFormed := by
  induction bs generalizing i with
  | nil => exact ⟨[],rfl,by simp⟩
  | cons b bs ih =>
    obtain ⟨ks,hks,hsame⟩ := linkGotos_keys (i+1) b.keys (bs.flatMap Block.tokens)
    obtain ⟨bs',hbs',hwf⟩ := ih (i+1+b.keys.length) fun b hb => hbs b (by simp [hb])
    refine ⟨⟨b.rule,ks⟩::bs',?_,List.forall_mem_cons.mpr ⟨(hbs b (by simp)).relink hsame,hwf⟩⟩
    simp only [List.flatMap_cons,Block.tokens,List.cons_append,linkGotos]
    rw [hks,hbs']

/-- Every accepted line of the files has at most 64 keys. -/
def SmallRules (o : Options) (files : List (Option (List UInt8))) : Prop :=
  ∀ content, some content ∈ files → ∀ line ∈ fileLines content, ∀ ts, addRule o line = some ts →
    ts.length ≤ 1+maxTk

instance (o : Options) (files : List (Option (List UInt8))) : Decidable (SmallRules o files) :=
  decidable_of_iff (∀ file ∈ files, ∀ content ∈ file.toList, ∀ line ∈ fileLines content,
      ((addRule o line).getD []).length ≤ 1+maxTk) <| by
    refine ⟨fun h content hc line hl ts hts => ?_,fun h file hf content hc line hl => ?_⟩
    · have := h _ hc content (by simp) line hl
      rwa [hts] at this
    · rw [Option.mem_toList] at hc
      subst hc
      cases hts : addRule o line with
      | none => simp
      | some ts => exact h content hf line hl ts hts

/-- The tokens of one file after `first` others. -/
def fileSegment (o : Options) (first : ℕ) (file : Option (List UInt8)) : List Token :=
  file.elim [] fun content => linkGotos first (fileTokens o content)

def fileSegments (o : Options) : ℕ → List (Option (List UInt8)) → List (List Token)
  | _, [] => []
  | first, f::fs =>
    fileSegment o first f::fileSegments o (first+(fileSegment o first f).length) fs

theorem fileTokens_blocks {o : Options} {content : List UInt8}
    (h : ∀ line ∈ fileLines content, ∀ ts, addRule o line = some ts → ts.length ≤ 1+maxTk) :
    ∃ bs : List Block, fileTokens o content = bs.flatMap Block.tokens ∧
      ∀ b ∈ bs, b.WellFormed ∧ ∀ k ∈ b.keys, k.ruleGoto = 0 := by
  unfold fileTokens
  generalize fileLines content = lines at h
  induction lines with
  | nil => exact ⟨[],rfl,by simp⟩
  | cons line lines ih =>
    obtain ⟨bs,hbs,hwf⟩ := ih fun l hl => h l (by simp [hl])
    cases hadd : addRule o line with
    | none => exact ⟨bs,by simp [hadd,hbs],hwf⟩
    | some ts =>
      obtain ⟨b,rfl,hb,hg⟩ := addRule_block hadd (h line (by simp) ts hadd)
      exact ⟨b::bs,by simp [hadd,hbs],List.forall_mem_cons.mpr ⟨⟨hb,hg⟩,hwf⟩⟩

theorem parseFile_eq {o : Options} {file : Option (List UInt8)} (tokens : List Token)
    (h : SmallRules o [file]) :
    parseFile o tokens file = tokens ++ fileSegment o tokens.length file := by
  cases file with
  | none => simp [parseFile,fileSegment]
  | some content =>
    obtain ⟨bs,hbs,_⟩ := fileTokens_blocks (o := o) (h content (by simp))
    simp only [parseFile,fileSegment,Option.elim_some,hbs]
    cases bs with
    | nil => simp [linkGotos,List.take_of_length_le,List.drop_eq_nil_of_le]
    | cons b bs =>
      have hlist : tokens ++ (b::bs).flatMap Block.tokens =
          (tokens ++ [.rule b.rule]) ++ (b.keys.map .key ++ bs.flatMap Block.tokens) := by
        simp [Block.tokens]
      have hlen : tokens.length+1 = (tokens ++ [Token.rule b.rule]).length := by simp
      rw [hlist,hlen,List.take_left,List.drop_left]
      simp [Block.tokens,linkGotos]

theorem rulesLoad_segments {o : Options} {files : List (Option (List UInt8))} (h : SmallRules o files) :
    rulesLoad o files = (fileSegments o 0 files).flatten ++ [.tkEnd] := by
  have hfold : ∀ (files : List (Option (List UInt8))) (tokens : List Token), SmallRules o files →
      files.foldl (parseFile o) tokens = tokens ++ (fileSegments o tokens.length files).flatten := by
    intro files
    induction files with
    | nil => intros; simp [fileSegments]
    | cons f fs ih =>
      intro tokens h
      have hf : SmallRules o [f] := fun c hc => h c (by simp at hc; simp [hc])
      have hfs : SmallRules o fs := fun c hc => h c (by simp [hc])
      rw [List.foldl_cons,parseFile_eq tokens hf,ih _ hfs]
      simp [fileSegments]
  rw [rulesLoad,hfold files [] h]
  simp

/-- The tokens of the files: blocks, and GOTOs that lead to the first rule with their
label that follows in the same file. -/
structure Compiled (segs : List (List Token)) : Prop where
  blocks : ∀ seg ∈ segs, ∃ bs : List Block, seg = bs.flatMap Block.tokens ∧ ∀ b ∈ bs, b.WellFormed
  gotos : ∀ pre seg post, segs = pre ++ seg::post → ∀ i k, seg[i]? = some (.key k) → k.ruleGoto ≠ 0 →
    ∃ j r, i < j ∧ k.ruleGoto = pre.flatten.length+j ∧ seg[j]? = some (.rule r) ∧ r.label = k.value ∧
      ∀ l, i < l → l < j → ∀ r', seg[l]? = some (.rule r') → r'.label ≠ k.value

theorem SmallRules.head {o : Options} {f : Option (List UInt8)} {fs : List (Option (List UInt8))}
    (h : SmallRules o (f::fs)) : SmallRules o [f] := fun c hc =>
  h c (by simp at hc; simp [hc])

theorem SmallRules.tail {o : Options} {f : Option (List UInt8)} {fs : List (Option (List UInt8))}
    (h : SmallRules o (f::fs)) : SmallRules o fs := fun c hc => h c (by simp [hc])

theorem fileSegment_blocks {o : Options} {first : ℕ} {file : Option (List UInt8)}
    (h : SmallRules o [file]) :
    ∃ bs : List Block, fileSegment o first file = bs.flatMap Block.tokens ∧ ∀ b ∈ bs, b.WellFormed := by
  cases file with
  | none => exact ⟨[],rfl,by simp⟩
  | some content =>
    obtain ⟨bs,hbs,hwf⟩ := fileTokens_blocks (o := o) (h content (by simp))
    simp only [fileSegment,Option.elim_some,hbs]
    exact linkGotos_blocks first bs fun b hb => (hwf b hb).1

theorem fileSegment_goto {o : Options} {first : ℕ} {file : Option (List UInt8)} (h : SmallRules o [file])
    {i : ℕ} {k : KeyToken} (hk : (fileSegment o first file)[i]? = some (.key k)) (hg : k.ruleGoto ≠ 0) :
    ∃ j r, i < j ∧ k.ruleGoto = first+j ∧ (fileSegment o first file)[j]? = some (.rule r) ∧
      r.label = k.value ∧ ∀ l, i < l → l < j → ∀ r', (fileSegment o first file)[l]? = some (.rule r') →
        r'.label ≠ k.value := by
  cases file with
  | none => simp [fileSegment] at hk
  | some content =>
    obtain ⟨bs,hbs,hwf⟩ := fileTokens_blocks (o := o) (h content (by simp))
    have hnew : ∀ k, .key k ∈ fileTokens o content → k.ruleGoto = 0 := by
      intro k hk
      rw [hbs] at hk
      obtain ⟨b,hb,hkb⟩ := List.mem_flatMap.mp hk
      rcases List.mem_cons.mp hkb with hkb | hkb
      · cases hkb
      · obtain ⟨k',hk',he⟩ := List.mem_map.mp hkb
        cases he
        exact (hwf b hb).2 k hk'
    simp only [fileSegment,Option.elim_some,linkGotos_rule] at hk ⊢
    exact linkGotos_goto first _ hnew hk hg

theorem fileSegments_compiled {o : Options} {files : List (Option (List UInt8))} (h : SmallRules o files) :
    Compiled (fileSegments o 0 files) := by
  have hgotos : ∀ (files : List (Option (List UInt8))) (first : ℕ), SmallRules o files →
      ∀ pre seg post, fileSegments o first files = pre ++ seg::post → ∀ i k, seg[i]? = some (.key k) →
      k.ruleGoto ≠ 0 → ∃ j r, i < j ∧ k.ruleGoto = first+pre.flatten.length+j ∧
        seg[j]? = some (.rule r) ∧ r.label = k.value ∧
        ∀ l, i < l → l < j → ∀ r', seg[l]? = some (.rule r') → r'.label ≠ k.value := by
    intro files
    induction files with
    | nil => intro first _ pre seg post he; simp [fileSegments] at he
    | cons f fs ih =>
      intro first h pre seg post he i k hk hg
      cases pre with
      | nil =>
        obtain ⟨rfl,_⟩ := List.cons.inj he
        exact fileSegment_goto h.head hk hg
      | cons p pre =>
        obtain ⟨rfl,hrest⟩ := List.cons.inj he
        have := ih _ h.tail pre seg post hrest i k hk hg
        simpa [Nat.add_assoc] using this
  refine ⟨?_,fun pre seg post he i k hk hg => ?_⟩
  · have hblocks : ∀ (files : List (Option (List UInt8))) (first : ℕ), SmallRules o files →
        ∀ seg ∈ fileSegments o first files,
        ∃ bs : List Block, seg = bs.flatMap Block.tokens ∧ ∀ b ∈ bs, b.WellFormed := by
      intro files
      induction files with
      | nil => intro first _ seg hseg; simp [fileSegments] at hseg
      | cons f fs ih =>
        intro first h seg hseg
        rcases List.mem_cons.mp hseg with rfl | hseg
        · exact fileSegment_blocks h.head
        · exact ih _ h.tail seg hseg
    exact hblocks files 0 h
  · simpa using hgotos files 0 h pre seg post he i k hk hg

/-- The tokens from the start of a rule on: the blocks of the rules and the end. -/
inductive Blocks : List Token → Prop
  | tkEnd : Blocks [.tkEnd]
  | block (b : Block) (rest : List Token) (hb : b.WellFormed) (hrest : Blocks rest) :
    Blocks (b.tokens ++ rest)

theorem blocks_of_list (bs : List Block) (h : ∀ b ∈ bs, b.WellFormed) {rest : List Token}
    (hrest : Blocks rest) : Blocks (bs.flatMap Block.tokens ++ rest) := by
  induction bs with
  | nil => exact hrest
  | cons b bs ih =>
    rw [List.flatMap_cons,List.append_assoc]
    exact .block b _ (h b (by simp)) (ih fun b hb => h b (by simp [hb]))

theorem Compiled.blocks_flatten {segs : List (List Token)} (h : Compiled segs) :
    Blocks (segs.flatten ++ [.tkEnd]) := by
  have hb := h.blocks
  clear h
  induction segs with
  | nil => exact .tkEnd
  | cons seg segs ih =>
    obtain ⟨bs,rfl,hbs⟩ := hb seg (by simp)
    rw [List.flatten_cons,List.append_assoc]
    exact blocks_of_list bs hbs (ih fun s hs => hb s (by simp [hs]))

theorem Blocks.drop {ts : List Token} (h : Blocks ts) {n : ℕ} {r : RuleToken}
    (hr : ts[n]? = some (.rule r)) : Blocks (ts.drop n) := by
  induction h generalizing n with
  | tkEnd =>
    cases n with
    | zero => simp at hr
    | succ n => simp at hr
  | block b rest hb hrest ih =>
    by_cases hn : n < b.tokens.length
    · cases n with
      | zero => exact .block b rest hb hrest
      | succ n =>
        rw [List.getElem?_append_left hn] at hr
        simp [Block.tokens] at hr
    · have hn : b.tokens.length ≤ n := not_lt.mp hn
      rw [List.getElem?_append_right hn] at hr
      rw [List.drop_append,List.drop_eq_nil_of_le hn,List.nil_append]
      exact ih hr

def Forward (ts : List Token) : Prop :=
  ∀ (i : ℕ) (k : KeyToken), ts[i]? = some (.key k) → k.ruleGoto ≠ 0 →
    i < k.ruleGoto ∧ ∃ r, ts[k.ruleGoto]? = some (.rule r)

theorem getElem?_flatten {α : Type*} {segs : List (List α)} {i : ℕ} {t : α}
    (h : segs.flatten[i]? = some t) :
    ∃ pre seg post j, segs = pre ++ seg::post ∧ i = pre.flatten.length+j ∧ seg[j]? = some t := by
  induction segs generalizing i with
  | nil => simp at h
  | cons s segs ih =>
    rw [List.flatten_cons] at h
    by_cases hi : i < s.length
    · rw [List.getElem?_append_left hi] at h
      exact ⟨[],s,segs,i,rfl,by simp,h⟩
    · rw [List.getElem?_append_right (not_lt.mp hi)] at h
      obtain ⟨pre,seg,post,j,rfl,hj,ht⟩ := ih h
      exact ⟨s::pre,seg,post,j,rfl,by rw [List.flatten_cons,List.length_append]; omega,ht⟩

theorem Compiled.forward {segs : List (List Token)} (h : Compiled segs) :
    Forward (segs.flatten ++ [.tkEnd]) := by
  intro i k hk hg
  have hi : i < segs.flatten.length := by
    by_contra hge
    rw [List.getElem?_append_right (not_lt.mp hge)] at hk
    have := List.mem_of_getElem? hk
    simp at this
  rw [List.getElem?_append_left hi] at hk
  obtain ⟨pre,seg,post,m,rfl,rfl,hm⟩ := getElem?_flatten hk
  obtain ⟨j,r,hmj,hgoto,hr,_⟩ := h.gotos pre seg post rfl m k hm hg
  refine ⟨by omega,r,?_⟩
  have hj : j < seg.length := (List.getElem?_eq_some_iff.mp hr).1
  rw [hgoto,List.flatten_append,List.flatten_cons,List.append_assoc,
    List.getElem?_append_right (by omega),Nat.add_sub_cancel_left,List.append_assoc,
    List.getElem?_append_left hj]
  exact hr

end Rules
end Udev
