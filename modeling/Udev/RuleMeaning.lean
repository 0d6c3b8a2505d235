import Udev.RuleRun

/-! What rules mean in the words of their files: the rules of a file are tried one after the
other, a rule applies when all its matches succeed, and a GOTO goes on with the first later
rule of its file that has the label. The token array with its indexes computes this. -/
namespace Udev
namespace Rules

open CString RuleLine Runs

def blockOf : List Token → Option Block
  | .rule r::ts => some ⟨r,ts.filterMap fun t => match t with
    | .key k => some k
    | _ => none⟩
  | _ => none

def fileRules (o : Options) (content : List UInt8) : List Block :=
  (fileLines content).filterMap fun line => (addRule o line).bind blockOf

def hasLabel (rules : List Block) (label : CString) : Bool :=
  label ≠ [] && rules.any fun b => b.rule.label = label

def isGoto (rules : List Block) (k : KeyToken) : Bool := k.type = .aGoto && hasLabel rules k.value

/-- The keys up to the first that `p` holds of. -/
def upTo (p : KeyToken → Bool) : List KeyToken → List KeyToken
  | [] => []
  | k::ks => if p k then [k] else k::upTo p ks

section Meaning

variable {σ : Type} (h : Host σ) (canSet : Bool)

/-- The rules of a file from a place on; where a label is given, the rules before the one
that has it are passed over. -/
def runRules : Option CString → List Block → State σ → State σ
  | _, [], st => st
  | goto, b::rules, st =>
    if goto.any (· ≠ b.rule.label) then runRules goto rules st
    else
      let r := ruleMatches h canSet b st
      let as := b.keys.filter (·.type.isAssign)
      if r.1 then
        runRules ((as.find? (isGoto rules)).map (·.value)) rules (assignKeys h r.2 (upTo (isGoto rules) as))
      else runRules none rules r.2

/-- The rules of the files in their order; no GOTO leads out of its file. -/
def runFiles (o : Options) (files : List (Option (List UInt8))) (st : State σ) : State σ :=
  files.foldl (fun st file => file.elim st fun content => runRules h canSet none (fileRules o content) st) st

end Meaning

section Link

/-- A key as it is linked before the rules that start at index `i`. -/
def linkKey (i : ℕ) (rules : List Block) (k : KeyToken) : KeyToken :=
  if k.type = .aGoto then { k with ruleGoto := findLabel k.value i (rules.flatMap Block.tokens) } else k

def linkBlocks : ℕ → List Block → List Block
  | _, [] => []
  | i, b::rules => { b with keys := b.keys.map (linkKey (i+b.tokens.length) rules) }::
      linkBlocks (i+b.tokens.length) rules

@[simp] theorem linkKey_type (i : ℕ) (rules : List Block) (k : KeyToken) : (linkKey i rules k).type = k.type := by
  unfold linkKey
  split_ifs <;> rfl

@[simp] theorem unlink_linkKey (i : ℕ) (rules : List Block) (k : KeyToken) :
    unlink (linkKey i rules k) = unlink k := by
  unfold linkKey
  split_ifs <;> rfl

theorem linkKey_of_isMatch (i : ℕ) (rules : List Block) {k : KeyToken} (hk : k.type.isMatch = true) :
    linkKey i rules k = k := by
  refine if_neg fun hg => ?_
  rw [hg] at hk
  cases hk

theorem findLabel_keys (label : CString) (j : ℕ) (ks : List KeyToken) (rest : List Token) :
    findLabel label j (ks.map .key ++ rest) = findLabel label (j+ks.length) rest := by
  induction ks generalizing j with
  | nil => rfl
  | cons k ks ih =>
    simp only [List.map_cons,List.cons_append,findLabel,ih,List.length_cons]
    congr 1
    omega

theorem findLabel_block (label : CString) (j : ℕ) (b : Block) (rest : List Token) :
    findLabel label j (b.tokens ++ rest) =
      if b.rule.label ≠ [] ∧ b.rule.label = label then j else findLabel label (j+b.tokens.length) rest := by
  have hlen : j+1+b.keys.length = j+b.tokens.length := by
    rw [b.tokens_length]
    omega
  rw [Block.tokens,List.cons_append,findLabel,findLabel_keys,hlen]
  rfl

theorem findLabel_ne_zero (label : CString) {j : ℕ} (hj : 0 < j) (rules : List Block) :
    findLabel label j (rules.flatMap Block.tokens) ≠ 0 ↔ hasLabel rules label = true := by
  induction rules generalizing j with
  | nil => simp [findLabel,hasLabel]
  | cons b rules ih =>
    rw [List.flatMap_cons,findLabel_block]
    by_cases hb : b.rule.label ≠ [] ∧ b.rule.label = label
    · rw [if_pos hb]
      have hne : label ≠ [] := hb.2 ▸ hb.1
      simp [hasLabel,hb.2,hne,Nat.pos_iff_ne_zero.mp hj]
    · rw [if_neg hb,ih (by omega)]
      have hlabel : label ≠ [] → b.rule.label ≠ label := fun hne he => hb ⟨he ▸ hne,he⟩
      by_cases hne : label = []
      · simp [hasLabel,hne]
      · simp [hasLabel,hne,hlabel hne]

theorem linkGotos_keys_eq (i : ℕ) (ks : List KeyToken) (rules : List Block) :
    linkGotos i (ks.map .key ++ rules.flatMap Block.tokens) =
      (ks.map (linkKey (i+ks.length) rules)).map .key ++ linkGotos (i+ks.length) (rules.flatMap Block.tokens) := by
  induction ks generalizing i with
  | nil => rfl
  | cons k ks ih =>
    have hlen : i+1+ks.length = i+(k::ks).length := by
      rw [List.length_cons]
      omega
    simp only [List.map_cons,List.cons_append,linkGotos,findLabel_keys,ih,hlen]
    rfl

theorem linkGotos_eq (i : ℕ) (rules : List Block) :
    linkGotos i (rules.flatMap Block.tokens) = (linkBlocks i rules).flatMap Block.tokens := by
  induction rules generalizing i with
  | nil => rfl
  | cons b rules ih =>
    have hlen : i+1+b.keys.length = i+b.tokens.length := by
      rw [b.tokens_length]
      omega
    simp only [List.flatMap_cons,Block.tokens,List.cons_append,linkGotos,linkGotos_keys_eq,hlen,ih,linkBlocks]

theorem linkBlocks_length (i : ℕ) (rules : List Block) :
    ((linkBlocks i rules).flatMap Block.tokens).length = (rules.flatMap Block.tokens).length := by
  induction rules generalizing i with
  | nil => rfl
  | cons b rules ih => simp [linkBlocks,ih,Block.tokens]

theorem linkBlocks_wellFormed {rules : List Block} (hr : ∀ b ∈ rules, b.WellFormed) (i : ℕ) :
    ∀ b ∈ linkBlocks i rules, b.WellFormed := by
  induction rules generalizing i with
  | nil => simp [linkBlocks]
  | cons b rules ih =>
    refine List.forall_mem_cons.mpr ⟨(hr b (by simp)).relink ?_,ih (fun b hb => hr b (by simp [hb])) _⟩
    simp [Function.comp_def]

theorem linked_linkKey {i : ℕ} (hi : 0 < i) (rules : List Block) (k : KeyToken) :
    linked (linkKey i rules k) = isGoto rules k := by
  have hfound := findLabel_ne_zero k.value hi rules
  by_cases hg : k.type = .aGoto
  · have hgoto : (linkKey i rules k).ruleGoto = findLabel k.value i (rules.flatMap Block.tokens) := by
      rw [linkKey,if_pos hg]
    rw [Bool.eq_iff_iff]
    simpa [linked,isGoto,hg,hgoto] using hfound
  · simp [linked,isGoto,hg]

theorem untilGoto_linkKey {i : ℕ} (hi : 0 < i) (rules : List Block) (as : List KeyToken) :
    untilGoto (as.map (linkKey i rules)) = (upTo (isGoto rules) as).map (linkKey i rules) := by
  induction as with
  | nil => rfl
  | cons k as ih =>
    simp only [List.map_cons,untilGoto,upTo,linked_linkKey hi rules k]
    split_ifs
    · rfl
    · rw [List.map_cons,ih]

theorem find?_linkKey {i : ℕ} (hi : 0 < i) (rules : List Block) (as : List KeyToken) :
    (as.map (linkKey i rules)).find? linked = (as.find? (isGoto rules)).map (linkKey i rules) := by
  induction as with
  | nil => rfl
  | cons k as ih =>
    simp only [List.map_cons,List.find?_cons,linked_linkKey hi rules k]
    cases isGoto rules k with
    | true => rfl
    | false => exact ih

end Link

section Simulation

variable {σ : Type} (h : Host σ) (canSet : Bool)

theorem assignKeys_linkKey (i : ℕ) (rules : List Block) (st : State σ) (as : List KeyToken) :
    assignKeys h st (as.map (linkKey i rules)) = assignKeys h st as := by
  have hkey : ∀ (st : State σ) (k : KeyToken), assignToken h st (linkKey i rules k) = assignToken h st k := by
    intro st k
    unfold linkKey
    split_ifs with hg
    · simp [assignToken,hg]
    · rfl
  induction as generalizing st with
  | nil => rfl
  | cons k as ih =>
    simp only [assignKeys,List.map_cons,List.foldl_cons,hkey] at ih ⊢
    exact ih _

theorem ruleMatches_linkKey (i : ℕ) (rules : List Block) (b : Block) (st : State σ) :
    ruleMatches h canSet { b with keys := b.keys.map (linkKey i rules) } st = ruleMatches h canSet b st := by
  have hfilter : (b.keys.map (linkKey i rules)).filter (·.type.isMatch) = b.keys.filter (·.type.isMatch) := by
    rw [List.filter_map,Function.comp_def]
    simp only [linkKey_type]
    refine (List.map_congr_left fun k hk => ?_).trans (List.map_id _)
    exact linkKey_of_isMatch i rules (List.mem_filter.mp hk).2
  simp only [ruleMatches,hfilter,List.length_map]

/-- Where the rules from index `i` on go on. -/
def place (i : ℕ) (rules : List Block) (goto : Option CString) : ℕ :=
  goto.elim i fun label => findLabel label i (rules.flatMap Block.tokens)

theorem runs_rules {ts rest : List Token} (hrest : Blocks rest) (rules : List Block) (hr : ∀ b ∈ rules, b.WellFormed) (i : ℕ)
    (hd : ts.drop i = (linkBlocks i rules).flatMap Block.tokens ++ rest) (goto : Option CString)
    (hgoto : goto.all (hasLabel rules) = true) (c : Config σ) (hc : c.cur = place i rules goto) :
    ∃ cs c', Path (step h ts canSet) c cs c' ∧ c'.cur = i+(rules.flatMap Block.tokens).length ∧
      c'.state = runRules h canSet goto rules c.state := by
  induction rules generalizing i goto c with
  | nil =>
    cases goto with
    | none => exact ⟨[],c,.nil c,by simpa [place] using hc,rfl⟩
    | some label => simp [hasLabel] at hgoto
  | cons b rules ih =>
    have hrules : ∀ b ∈ rules, b.WellFormed := fun b hb => hr b (by simp [hb])
    have hnext : ts.drop (i+b.tokens.length) =
        (linkBlocks (i+b.tokens.length) rules).flatMap Block.tokens ++ rest := by
      rw [← List.drop_drop,hd,linkBlocks,List.flatMap_cons,List.append_assoc]
      exact List.drop_left' (by simp [Block.tokens])
    have hend : i+((b::rules).flatMap Block.tokens).length =
        i+b.tokens.length+(rules.flatMap Block.tokens).length := by
      rw [List.flatMap_cons,List.length_append,Nat.add_assoc]
    rw [hend]
    by_cases hskip : goto.any (· ≠ b.rule.label) = true
    · obtain ⟨label,rfl,hne⟩ : ∃ label, goto = some label ∧ label ≠ b.rule.label := by
        cases goto with
        | none => simp at hskip
        | some label => exact ⟨label,rfl,by simpa using hskip⟩
      have hnot : ¬(b.rule.label ≠ [] ∧ b.rule.label = label) := fun hb => hne hb.2.symm
      have hplace : c.cur = place (i+b.tokens.length) rules (some label) := by
        rw [hc,place,place,Option.elim_some,Option.elim_some,List.flatMap_cons,findLabel_block,if_neg hnot]
      have hhas : (some label).all (hasLabel rules) = true := by
        simpa [hasLabel,hne.symm] using hgoto
      rw [runRules,if_pos hskip]
      exact ih hrules _ hnext _ hhas c hplace
    · have hcur : c.cur = i := by
        rw [hc]
        cases goto with
        | none => rfl
        | some label =>
          have hlabel : label = b.rule.label := by simpa using hskip
          have hne : label ≠ [] := by
            simp only [Option.all_some,hasLabel,Bool.and_eq_true,decide_eq_true_eq] at hgoto
            exact hgoto.1
          rw [place,Option.elim_some,List.flatMap_cons,findLabel_block,if_pos ⟨hlabel ▸ hne,hlabel.symm⟩]
      have hpos : 0 < i+b.tokens.length := by
        rw [b.tokens_length]
        omega
      set b' : Block := { b with keys := b.keys.map (linkKey (i+b.tokens.length) rules) }
      have hfilter : b'.keys.filter (·.type.isAssign) =
          (b.keys.filter (·.type.isAssign)).map (linkKey (i+b.tokens.length) rules) := by
        rw [List.filter_map,Function.comp_def]
        simp only [linkKey_type]
      have hlen : b'.tokens.length = b.tokens.length := by simp [b',Block.tokens]
      have hb' : b'.WellFormed := linkBlocks_wellFormed hr i b' (by simp [linkBlocks,b'])
      have hmatches := ruleMatches_linkKey h canSet (i+b.tokens.length) rules b c.state
      obtain ⟨cs,c₁,hran⟩ := rule_runs h canSet hb'
        (blocks_of_list _ (linkBlocks_wellFormed hrules _) hrest) c
        (by rw [hcur,hd,linkBlocks,List.flatMap_cons,List.append_assoc])
      rw [runRules,if_neg hskip]
      dsimp only
      cases hm : (ruleMatches h canSet b c.state).1 with
      | false =>
        obtain ⟨_,hstate,hcur₁⟩ := hran.fails (hmatches ▸ hm)
        obtain ⟨cs',c',hpath,hend',hstate'⟩ := ih hrules _ hnext none rfl c₁ (by rw [hcur₁,hcur,hlen]; rfl)
        refine ⟨cs ++ cs',c',hran.path.append hpath,hend',?_⟩
        rw [hstate',hstate,hmatches]
        simp
      | true =>
        obtain ⟨_,hstate,hcur₁⟩ := hran.applies (hmatches ▸ hm)
        rw [hfilter,find?_linkKey hpos rules] at hcur₁
        rw [hfilter,untilGoto_linkKey hpos rules,assignKeys_linkKey,hmatches] at hstate
        obtain ⟨goto',hgoto'⟩ : ∃ g, g = (b.keys.filter (·.type.isAssign)).find? (isGoto rules) := ⟨_,rfl⟩
        have hall : (goto'.map (·.value)).all (hasLabel rules) = true ∧
            c₁.cur = place (i+b.tokens.length) rules (goto'.map (·.value)) := by
          rw [← hgoto'] at hcur₁
          cases hg : goto' with
          | none => exact ⟨rfl,by rw [hcur₁,hg,hcur,hlen]; rfl⟩
          | some k =>
            have hk : isGoto rules k = true := List.find?_some (hgoto'.symm.trans hg)
            simp only [isGoto,Bool.and_eq_true,decide_eq_true_eq] at hk
            refine ⟨by simpa using hk.2,?_⟩
            rw [hcur₁,hg]
            simp [place,linkKey,hk.1]
        obtain ⟨cs',c',hpath,hend',hstate'⟩ := ih hrules _ hnext _ hall.1 c₁ hall.2
        refine ⟨cs ++ cs',c',hran.path.append hpath,hend',?_⟩
        rw [hstate',hstate,← hgoto']
        simp

end Simulation

section Files

variable {o : Options}

theorem blockOf_tokens (b : Block) : blockOf b.tokens = some b := by
  simp [blockOf,Block.tokens,List.filterMap_map]

theorem fileTokens_rules {content : List UInt8} (hsmall : SmallRules o [some content]) :
    fileTokens o content = (fileRules o content).flatMap Block.tokens ∧
      ∀ b ∈ fileRules o content, b.WellFormed := by
  have hlines := hsmall content (by simp)
  unfold fileTokens fileRules
  generalize fileLines content = lines at hlines
  induction lines with
  | nil => exact ⟨rfl,by simp⟩
  | cons line lines ih =>
    obtain ⟨htokens,hwf⟩ := ih fun l hl => hlines l (by simp [hl])
    cases hadd : addRule o line with
    | none => exact ⟨by simpa [hadd] using htokens,by simpa [hadd] using hwf⟩
    | some ts =>
      obtain ⟨b,rfl,hb,_⟩ := addRule_block hadd (hlines line (by simp) ts hadd)
      have hrules : (line::lines).filterMap (fun l => (addRule o l).bind blockOf) =
          b::lines.filterMap fun l => (addRule o l).bind blockOf :=
        List.filterMap_cons_some (by rw [hadd]; exact blockOf_tokens b)
      rw [hrules,List.flatMap_cons,List.flatMap_cons,htokens,hadd]
      exact ⟨rfl,List.forall_mem_cons.mpr ⟨hb,hwf⟩⟩

theorem fileSegment_rules {content : List UInt8} (hsmall : SmallRules o [some content]) (first : ℕ) :
    fileSegment o first (some content) = (linkBlocks first (fileRules o content)).flatMap Block.tokens := by
  rw [fileSegment,Option.elim_some,(fileTokens_rules hsmall).1,linkGotos_eq]

theorem blocks_fileSegments {files : List (Option (List UInt8))} (hsmall : SmallRules o files) (first : ℕ) :
    Blocks ((fileSegments o first files).flatten ++ [.tkEnd]) := by
  induction files generalizing first with
  | nil => exact .tkEnd
  | cons f fs ih =>
    obtain ⟨bs,hbs,hwf⟩ : ∃ bs : List Block, fileSegment o first f = bs.flatMap Block.tokens ∧
      ∀ b ∈ bs, b.WellFormed := fileSegment_blocks hsmall.head
    rw [fileSegments,List.flatten_cons,List.append_assoc,hbs]
    exact blocks_of_list bs hwf (hbs ▸ ih hsmall.tail _)

variable {σ : Type} (h : Host σ) (canSet : Bool) {ts : List Token}

theorem runs_files {files : List (Option (List UInt8))} (hsmall : SmallRules o files) (c : Config σ)
    (hd : ts.drop c.cur = (fileSegments o c.cur files).flatten ++ [.tkEnd]) :
    ∃ cs c', Path (step h ts canSet) c cs c' ∧ ts[c'.cur]? = some .tkEnd ∧
      c'.state = runFiles h canSet o files c.state := by
  induction files generalizing c with
  | nil => exact ⟨[],c,.nil c,by simpa [fileSegments] using getElem?_of_drop hd 0,rfl⟩
  | cons f fs ih =>
    cases f with
    | none => exact ih hsmall.tail c (by simpa [fileSegments,fileSegment] using hd)
    | some content =>
      obtain ⟨htokens,hwf⟩ := fileTokens_rules hsmall.head
      have hseg := fileSegment_rules hsmall.head c.cur
      have hlen : (fileSegment o c.cur (some content)).length = ((fileRules o content).flatMap Block.tokens).length := by
        rw [hseg,linkBlocks_length]
      rw [fileSegments,List.flatten_cons,List.append_assoc] at hd
      obtain ⟨cs,c₁,hpath,hcur,hstate⟩ := runs_rules h canSet
        (blocks_fileSegments hsmall.tail _) (fileRules o content) hwf c.cur (hseg ▸ hd) none rfl c rfl
      obtain ⟨cs',c',hpath',hend,hstate'⟩ := ih hsmall.tail c₁ (by
        rw [hcur,← hlen,← List.drop_drop,hd]
        exact List.drop_left' rfl)
      refine ⟨cs ++ cs',c',hpath.append hpath',hend,?_⟩
      rw [hstate',hstate]
      rfl

end Files

/-- The rules that are loaded act on an event as they mean in their files: the state in which
the loop over the tokens returns is that of the rules, file by file. -/
theorem rules_as_meant (o : Options) (files : List (Option (List UInt8))) (hsmall : SmallRules o files)
    {σ : Type} (h : Host σ) (ev : Event) (s : σ) :
    (applyVisits h (rulesLoad o files) ev s).getLast?.map (·.state) =
        some (runFiles h (canSetName ev) o files { event := ev, host := s }) ∧
      applyToEvent h (rulesLoad o files) ev s =
        (runFiles h (canSetName ev) o files { event := ev, host := s }).event := by
  have hload := rulesLoad_segments hsmall
  have hcomp := fileSegments_compiled hsmall
  have hblocks : Blocks (rulesLoad o files) := hload ▸ hcomp.blocks_flatten
  have hforward : Forward (rulesLoad o files) := hload ▸ hcomp.forward
  obtain ⟨cs,c,hpath,hend,hstate⟩ := runs_files h (canSetName ev) hsmall { state := { event := ev, host := s } }
    (by simpa using hload)
  have hnone : step h (rulesLoad o files) (canSetName ev) c = none := by simp [step,hend]
  have hfirst : Located (rulesLoad o files) 0 0 := .start (by simpa using hblocks)
  have hlen := hpath.length_le (fun c => Located (rulesLoad o files) c.cur c.rule) (·.cur)
    (fun c c' hc hs => hc.move hblocks hforward (step_move hs)) hfirst
  have hlast : (applyVisits h (rulesLoad o files) ev s).getLast? = some c := by
    have := hlen.1.lt_length
    rw [applyVisits,hpath.visits hnone (by omega),List.getLast?_concat]
  refine ⟨by rw [hlast,Option.map_some,hstate],?_⟩
  rw [applyToEvent,hlast,Option.map_some,Option.getD_some,hstate]

/-- A GOTO over a rule, and one whose label only a rule before it has. -/
def jumpRules : List (Option (List UInt8)) :=
  [some (str "LABEL=\"a\", GOTO=\"b\"\nGOTO=\"c\"\nLABEL=\"b\", GOTO=\"a\"\n")]

set_option maxRecDepth 8000 in
theorem rules_as_meant_jump : SmallRules plainOptions jumpRules ∧
    applyToEvent emptyHost (rulesLoad plainOptions jumpRules) { dev := {} } () =
      (runFiles emptyHost (canSetName { dev := {} }) plainOptions jumpRules
        { event := { dev := {} }, host := () }).event := by
  have hsmall : SmallRules plainOptions jumpRules := by decide
  exact ⟨hsmall,(rules_as_meant plainOptions jumpRules hsmall emptyHost { dev := {} } ()).2⟩

end Rules
end Udev
