import Udev.ProgramCounter
import Udev.RuleOrder

/-! A rule as a whole. Its matches come before its assignments, so a rule either assigns
nothing and the next rule follows, or all its matches succeed and it makes its assignments
in order, up to a GOTO that was linked. -/
namespace Udev
namespace Rules

open RuleLine Runs StableSort

variable {σ : Type} (h : Host σ)

def matchKeys : ℕ → State σ → List KeyToken → Bool × State σ
  | n+1, st, k::ks =>
    let st := st.elapse h
    if k.type.isParent then
      let r := matchParents h st.host st.event (k::ks.takeWhile (·.type.isParent))
      if r.1 then matchKeys n { st with event := r.2 } (ks.dropWhile (·.type.isParent))
      else (false,{ st with event := r.2 })
    else
      let r := matchToken h st k
      if r.1 then matchKeys n r.2 ks else (false,r.2)
  | _, st, _ => (true,st)

def ruleMatches (canSet : Bool) (b : Block) (st : State σ) : Bool × State σ :=
  let st := st.elapse h
  if !canSet && b.rule.canSetName then (false,st)
  else matchKeys h b.keys.length { st with esc := .unset } (b.keys.filter (·.type.isMatch))

def linked (k : KeyToken) : Bool := k.type = .aGoto && k.ruleGoto ≠ 0

def untilGoto : List KeyToken → List KeyToken
  | [] => []
  | k::ks => if linked k then [k] else k::untilGoto ks

def assignKeys (st : State σ) (ks : List KeyToken) : State σ :=
  ks.foldl (fun st k => assignToken h (st.elapse h) k) st

def assignedAt (ts : List Token) (c : Config σ) : Option KeyToken :=
  match ts[c.cur]? with
  | some (.key k) => if k.type.isAssign then some k else none
  | _ => none

theorem parentSeq_append {ms as : List KeyToken} {rest : List Token}
    (has : ∀ k ∈ as, k.type.isParent = false) (hrest : Blocks rest) :
    parentSeq ((ms ++ as).map .key ++ rest) = ms.takeWhile (·.type.isParent) := by
  induction ms with
  | nil =>
    cases as with
    | nil => simpa using parentSeq_blocks hrest
    | cons a as => simp [parentSeq,has a (by simp)]
  | cons k ms ih =>
    by_cases hk : k.type.isParent
    · simpa [parentSeq,hk] using ih
    · simp [parentSeq,hk]

theorem Block.WellFormed.split {b : Block} (hb : b.WellFormed) :
    b.keys = b.keys.filter (·.type.isMatch) ++ b.keys.filter (·.type.isAssign) := by
  obtain ⟨_,hsorted,hkeys,_⟩ := hb
  revert hsorted hkeys
  generalize b.keys = l
  intro hsorted hkeys
  induction l with
  | nil => rfl
  | cons k l ih =>
    obtain ⟨hle,hl⟩ := List.pairwise_cons.mp hsorted
    have hk := TokenType.isAssign_eq (hkeys k (by simp))
    have hrest := ih hl fun k hk => hkeys k (by simp [hk])
    by_cases hm : k.type.isMatch
    · simp only [List.filter_cons,hm,hk,if_true,Bool.not_true,List.cons_append]
      simpa using hrest
    · have hm : k.type.isMatch = false := by simpa using hm
      have hnone : l.filter (·.type.isMatch) = [] := by
        refine List.filter_eq_nil_iff.mpr fun x hx => ?_
        have := hle x hx
        simp only [TokenType.isMatch,decide_eq_false_iff_not] at hm
        simp only [TokenType.isMatch,decide_eq_true_eq]
        omega
      have hall : l.filter (·.type.isAssign) = l := by
        rw [hnone,List.nil_append] at hrest
        exact hrest.symm
      simp [hm,hk,hnone,hall]

section Run

variable {h} {ts : List Token} {canSet : Bool}

theorem step_key (h : Host σ) (canSet : Bool) {c : Config σ} {k : KeyToken} (hk : ts[c.cur]? = some (.key k)) :
    step h ts canSet c = some (stepKey h ts { c with state := c.state.elapse h } k) := by
  simp [step,hk]

theorem getElem?_of_keys {c : Config σ} {k : KeyToken} {l : List Token} (hd : ts.drop c.cur = .key k::l) :
    ts[c.cur]? = some (.key k) := by
  simpa using getElem?_of_drop hd 0

/-- From here the matches lead over `m` keys to the assignments, or to the next rule; in
between nothing is assigned. -/
def Leads (h : Host σ) (ts : List Token) (canSet : Bool) (c : Config σ) (m : ℕ) (r : Bool × State σ) : Prop :=
  ∃ cs, Path (step h ts canSet) c cs
      (if r.1 then { c with cur := c.cur+m, state := r.2 } else c.nomatch ts r.2) ∧
    cs.filterMap (assignedAt ts) = [] ∧ ∀ d ∈ cs, c.cur ≤ d.cur ∧ d.cur < c.cur+m

theorem leads_nil (c : Config σ) : Leads h ts canSet c 0 (true,c.state) :=
  ⟨[],.nil c,rfl,by simp⟩

theorem leads_fail {c : Config σ} {m : ℕ} {st : State σ} (hm : 0 < m)
    (hs : step h ts canSet c = some (c.nomatch ts st)) (hnone : assignedAt ts c = none) :
    Leads h ts canSet c m (false,st) :=
  ⟨[c],.single hs,by simp [hnone],by simpa using hm⟩

theorem Leads.cons {c : Config σ} {i m : ℕ} {st : State σ} {r : Bool × State σ} (hi : 0 < i)
    (hs : step h ts canSet c = some { c with cur := c.cur+i, state := st })
    (hnone : assignedAt ts c = none)
    (hl : Leads h ts canSet { c with cur := c.cur+i, state := st } m r) :
    Leads h ts canSet c (i+m) r := by
  obtain ⟨cs,hpath,hassigned,hbound⟩ := hl
  simp only [Nat.add_assoc] at hpath hbound
  refine ⟨c::cs,.cons hs hpath,by simp [hnone,hassigned],?_⟩
  refine List.forall_mem_cons.mpr ⟨⟨le_rfl,by omega⟩,fun d hd => ?_⟩
  have := hbound d hd
  exact ⟨by omega,this.2⟩

theorem matchKeys_leads (h : Host σ) (canSet : Bool) {as : List KeyToken} {rest : List Token} (hrest : Blocks rest)
    (has : ∀ k ∈ as, k.type.isAssign = true) (n : ℕ) (c : Config σ) (ms : List KeyToken)
    (hn : ms.length ≤ n) (hms : ∀ k ∈ ms, k.type.isMatch = true)
    (hd : ts.drop c.cur = (ms ++ as).map .key ++ rest) :
    Leads h ts canSet c ms.length (matchKeys h n c.state ms) := by
  induction n generalizing c ms with
  | zero =>
    rw [List.length_eq_zero_iff.mp (by omega : ms.length = 0)]
    exact leads_nil c
  | succ n ih =>
    cases ms with
    | nil => exact leads_nil c
    | cons k ms =>
      have hk : ts[c.cur]? = some (.key k) := getElem?_of_keys hd
      have hnot := TokenType.isAssign_of_isMatch (hms k (by simp))
      have hnone : assignedAt ts c = none := by simp [assignedAt,hk,hnot]
      have hstep := step_key h canSet hk
      by_cases hp : k.type.isParent
      · obtain ⟨pre,post,hpre,hpost,hsplit⟩ : ∃ pre post, pre = ms.takeWhile (·.type.isParent) ∧
            post = ms.dropWhile (·.type.isParent) ∧ ms = pre ++ post :=
          ⟨_,_,rfl,rfl,List.takeWhile_append_dropWhile.symm⟩
        have hseq : parentSeq (ts.drop c.cur) = k::pre := by
          rw [hd,parentSeq_append (fun a ha => TokenType.isParent_of_isAssign (has a ha)) hrest,hpre]
          simp [hp]
        simp only [stepKey,hp,hseq,if_true] at hstep
        have hkeys : ∀ st : State σ, st = c.state.elapse h →
            matchKeys h (n+1) c.state (k::ms) =
              if (matchParents h st.host st.event (k::pre)).1 then
                matchKeys h n { st with event := (matchParents h st.host st.event (k::pre)).2 } post
              else (false,{ st with event := (matchParents h st.host st.event (k::pre)).2 }) := by
          rintro st rfl
          simp [matchKeys,hp,hpre,hpost]
        rw [hkeys _ rfl]
        cases hr : (matchParents h (c.state.elapse h).host (c.state.elapse h).event (k::pre)).1 with
        | true =>
          simp only [hr,if_true] at hstep ⊢
          have hlen : (k::ms).length = (k::pre).length+post.length := by rw [hsplit]; simp; omega
          rw [hlen]
          refine Leads.cons (by simp) hstep hnone (ih _ post ?_ (fun x hx => ?_) ?_)
          · rw [hsplit] at hn
            simp at hn
            omega
          · exact hms x (by simp [hsplit,hx])
          · have hparts : (k::ms ++ as).map Token.key ++ rest =
                (k::pre).map .key ++ ((post ++ as).map .key ++ rest) := by simp [hsplit]
            rw [← List.drop_drop,hd,hparts]
            exact List.drop_left' (by simp)
        | false =>
          simp only [hr] at hstep ⊢
          exact leads_fail (by simp) hstep hnone
      · simp only [stepKey,hp,hnot] at hstep
        have hkeys : matchKeys h (n+1) c.state (k::ms) =
            if (matchToken h (c.state.elapse h) k).1 then
              matchKeys h n (matchToken h (c.state.elapse h) k).2 ms
            else (false,(matchToken h (c.state.elapse h) k).2) := by
          simp [matchKeys,hp]
        rw [hkeys]
        cases hr : (matchToken h (c.state.elapse h) k).1 with
        | true =>
          simp only [hr,if_true] at hstep ⊢
          rw [List.length_cons,Nat.add_comm]
          refine Leads.cons (by omega) hstep hnone (ih _ ms (by simpa using hn)
            (fun x hx => hms x (by simp [hx])) ?_)
          rw [← List.drop_drop,hd]
          simp
        | false =>
          simp only [hr] at hstep ⊢
          exact leads_fail (by simp) hstep hnone

/-- The assignments are made in order up to a GOTO that leads to a rule. -/
theorem assignKeys_path (h : Host σ) (canSet : Bool) (as : List KeyToken) {rest : List Token}
    (c : Config σ) (has : ∀ k ∈ as, k.type.isAssign = true) (hd : ts.drop c.cur = as.map .key ++ rest) :
    ∃ cs, Path (step h ts canSet) c cs
        { c with cur := (as.find? linked).elim (c.cur+as.length) (·.ruleGoto)
                 state := assignKeys h c.state (untilGoto as) } ∧
      cs.filterMap (assignedAt ts) = untilGoto as ∧
      ∀ d ∈ cs, c.cur ≤ d.cur ∧ d.cur < c.cur+as.length := by
  induction as generalizing c with
  | nil => exact ⟨[],.nil c,rfl,by simp⟩
  | cons k as ih =>
    have hk : ts[c.cur]? = some (.key k) := getElem?_of_keys hd
    have hassign : k.type.isAssign = true := has k (by simp)
    have hsome : assignedAt ts c = some k := by simp [assignedAt,hk,hassign]
    have hstep := step_key h canSet hk
    simp only [stepKey,TokenType.isParent_of_isAssign hassign,hassign,if_true] at hstep
    by_cases hl : linked k
    · have hgoto : k.type = .aGoto ∧ k.ruleGoto ≠ 0 := by simpa [linked] using hl
      rw [if_pos hgoto] at hstep
      have hstate : assignKeys h c.state (untilGoto (k::as)) = c.state.elapse h := by
        simp [untilGoto,hl,assignKeys,assignToken,hgoto.1]
      refine ⟨[c],.single ?_,by simp [hsome,untilGoto,hl],by simp⟩
      rw [hstate]
      simpa [hl] using hstep
    · have hgoto : ¬(k.type = .aGoto ∧ k.ruleGoto ≠ 0) := by simpa [linked] using hl
      rw [if_neg hgoto] at hstep
      obtain ⟨cs,hpath,hassigned,hbound⟩ := ih { c with cur := c.cur+1, state := assignToken h (c.state.elapse h) k }
        (fun x hx => has x (by simp [hx])) (by rw [← List.drop_drop,hd]; simp)
      have hend : c.cur+1+as.length = c.cur+(k::as).length := by simp; omega
      simp only [hend] at hpath hbound
      refine ⟨c::cs,.cons hstep ?_,by simp [hsome,hassigned,untilGoto,hl],?_⟩
      · simpa [Config.next,hl,untilGoto,assignKeys] using hpath
      · refine List.forall_mem_cons.mpr ⟨⟨le_rfl,by simp⟩,fun d hdm => ?_⟩
        have := hbound d hdm
        exact ⟨by omega,this.2⟩

/-- What a rule does from its rule token on until another rule follows. -/
structure Ran (h : Host σ) (ts : List Token) (canSet : Bool) (b : Block) (c : Config σ) (cs : List (Config σ))
    (c' : Config σ) : Prop where
  path : Path (step h ts canSet) c cs c'
  inside : ∀ d ∈ cs, c.cur ≤ d.cur ∧ d.cur < c.cur+b.tokens.length
  /-- All matches succeed: the assignments are made up to a GOTO that leads to a rule. -/
  applies : (ruleMatches h canSet b c.state).1 = true →
    cs.filterMap (assignedAt ts) = untilGoto (b.keys.filter (·.type.isAssign)) ∧
    c'.state = assignKeys h (ruleMatches h canSet b c.state).2 (untilGoto (b.keys.filter (·.type.isAssign))) ∧
    c'.cur = ((b.keys.filter (·.type.isAssign)).find? linked).elim (c.cur+b.tokens.length) (·.ruleGoto)
  /-- The rule is skipped or a match fails: nothing is assigned. -/
  fails : (ruleMatches h canSet b c.state).1 = false →
    cs.filterMap (assignedAt ts) = [] ∧ c'.state = (ruleMatches h canSet b c.state).2 ∧
    c'.cur = c.cur+b.tokens.length

theorem rule_runs (h : Host σ) (canSet : Bool) {b : Block} {rest : List Token}
    (hb : b.WellFormed) (hrest : Blocks rest) (c : Config σ)
    (hd : ts.drop c.cur = b.tokens ++ rest) : ∃ cs c', Ran h ts canSet b c cs c' := by
  have hr : ts[c.cur]? = some (.rule b.rule) := by simpa [Block.tokens] using getElem?_of_drop hd 0
  have hnone : assignedAt ts c = none := by simp [assignedAt,hr]
  have hcount := tokenCount_block hb hd
  have hlen := b.tokens_length
  by_cases hskip : (!canSet && b.rule.canSetName) = true
  · have hfalse : ruleMatches h canSet b c.state = (false,c.state.elapse h) := by
      simp only [ruleMatches,hskip,if_true]
    have hstep : step h ts canSet c =
        some { cur := c.cur+b.tokens.length, rule := c.cur, state := c.state.elapse h } := by
      simp only [step,hr,hskip,if_true,Config.nomatch,hcount]
    have hinside : ∀ d ∈ [c], c.cur ≤ d.cur ∧ d.cur < c.cur+b.tokens.length := by
      intro d hd
      rw [List.mem_singleton.mp hd]
      omega
    refine ⟨[c],_,.single hstep,hinside,fun hm => absurd hm (by simp [hfalse]),fun _ => ?_⟩
    exact ⟨by simp [hnone],by rw [hfalse],rfl⟩
  · let c₁ : Config σ := { cur := c.cur+1, rule := c.cur, state := { c.state.elapse h with esc := .unset } }
    have hstep : step h ts canSet c = some c₁ := by
      simp only [step,hr,hskip]
      rfl
    have hmatches : ruleMatches h canSet b c.state =
        matchKeys h b.keys.length c₁.state (b.keys.filter (·.type.isMatch)) := by
      simp only [ruleMatches,hskip]
      rfl
    have hassign : ∀ k ∈ b.keys.filter (·.type.isAssign), k.type.isAssign = true := fun k hk =>
      (List.mem_filter.mp hk).2
    have hd₁ : ts.drop c₁.cur =
        (b.keys.filter (·.type.isMatch) ++ b.keys.filter (·.type.isAssign)).map .key ++ rest := by
      rw [← hb.split,← List.drop_drop,hd]
      simp [Block.tokens]
    have hsum : (b.keys.filter (·.type.isMatch)).length + (b.keys.filter (·.type.isAssign)).length =
        b.keys.length := by
      rw [← List.length_append,← hb.split]
    obtain ⟨cs,hpath,hassigned,hbound⟩ := matchKeys_leads h canSet hrest hassign b.keys.length c₁
      (b.keys.filter (·.type.isMatch)) (List.length_filter_le _ _) (fun k hk => (List.mem_filter.mp hk).2) hd₁
    rw [← hmatches] at hpath
    have hc₁ : c₁.cur = c.cur+1 := rfl
    have hin : ∀ d ∈ c::cs, c.cur ≤ d.cur ∧ d.cur < c.cur+b.tokens.length := by
      refine List.forall_mem_cons.mpr ⟨⟨le_rfl,by omega⟩,fun d hdm => ?_⟩
      have := hbound d hdm
      omega
    cases hm : (ruleMatches h canSet b c.state).1 with
    | false =>
      rw [hm] at hpath
      refine ⟨c::cs,_,.cons hstep hpath,hin,fun ht => absurd ht (by simp [hm]),fun _ => ?_⟩
      refine ⟨by simp [hnone,hassigned],rfl,?_⟩
      simp [Config.nomatch,c₁,hcount]
    | true =>
      rw [hm,if_pos rfl] at hpath
      have hd₂ : ts.drop (c₁.cur+(b.keys.filter (·.type.isMatch)).length) =
          (b.keys.filter (·.type.isAssign)).map .key ++ rest := by
        rw [← List.drop_drop,hd₁,List.map_append,List.append_assoc]
        exact List.drop_left' (by simp)
      obtain ⟨cs',hpath',hassigned',hbound'⟩ := assignKeys_path h canSet _
        { c₁ with cur := c₁.cur+(b.keys.filter (·.type.isMatch)).length
                  state := (ruleMatches h canSet b c.state).2 } hassign hd₂
      have hend : c₁.cur+(b.keys.filter (·.type.isMatch)).length+(b.keys.filter (·.type.isAssign)).length =
          c.cur+b.tokens.length := by omega
      refine ⟨c::(cs++cs'),_,.cons hstep (hpath.append hpath'),?_,fun _ => ?_,fun hf => absurd hf (by simp [hm])⟩
      · intro d hdm
        rcases List.mem_cons.mp hdm with rfl | hdm
        · exact hin d (by simp)
        · rcases List.mem_append.mp hdm with hdm | hdm
          · exact hin d (by simp [hdm])
          · have := hbound' d hdm
            simp only [hend] at this
            exact ⟨by omega,this.2⟩
      · refine ⟨by simp [hnone,hassigned,hassigned'],rfl,?_⟩
        simp only [hend]

end Run

/-- Pairs of a line that give no token of one type and are not both labels may change
places, and a rule of the loaded rules does all or nothing: when it is not skipped and its
matches succeed, its assignments are made in order up to a GOTO that leads to a rule. -/
theorem rule_unordered_and_atomic (o : Options) :
    (∀ (line line' : CString) (ts : List Token), addRule o line = some ts → ts.length ≤ maxTk →
      Rearranges (KeepOrder o) (linePairs line) (linePairs line') →
      addRule o line' = some ts ∧
      ∀ (content content' : List UInt8) (pre post : List CString) (before after : List (Option (List UInt8))),
        fileLines content = pre ++ line::post → fileLines content' = pre ++ line'::post →
        rulesLoad o (before ++ some content'::after) = rulesLoad o (before ++ some content::after)) ∧
    ∀ files : List (Option (List UInt8)), SmallRules o files → ∀ (σ : Type) (h : Host σ) (canSet : Bool)
      (c : Config σ) (r : RuleToken), (rulesLoad o files)[c.cur]? = some (.rule r) →
      ∃ (b : Block) (rest : List Token) (cs : List (Config σ)) (c' : Config σ),
        (rulesLoad o files).drop c.cur = b.tokens ++ rest ∧ b.rule = r ∧ b.WellFormed ∧
        Ran h (rulesLoad o files) canSet b c cs c' := by
  refine ⟨fun line line' ts hadd hlen hperm => ?_,fun files hsmall σ h canSet c r hr => ?_⟩
  · have hline := addRule_rearranged hperm hadd hlen
    exact ⟨hline,fun content content' pre post before after hc hc' =>
      rulesLoad_rearranged hc hc' (hline.trans hadd.symm) before after⟩
  · have hblocks : Blocks (rulesLoad o files) :=
      rulesLoad_segments hsmall ▸ (fileSegments_compiled hsmall).blocks_flatten
    obtain ⟨b,rest,hb,hrest,hd,hrule⟩ := hblocks.at_rule hr
    obtain ⟨cs,c',hran⟩ := rule_runs h canSet hb hrest c hd
    exact ⟨b,rest,cs,c',hd,hrule,hb,hran⟩

/-- A match and an assignment in both orders. -/
def nameLine : CString := str "KERNEL==\"a\", NAME=\"b\"\n"

def nameLine' : CString := str "NAME=\"b\", KERNEL==\"a\"\n"

set_option maxRecDepth 8000 in
theorem rule_unordered_and_atomic_name :
    addRule plainOptions nameLine' = addRule plainOptions nameLine ∧
    SmallRules plainOptions [some nameLine] ∧
    ∃ (b : Block) (rest : List Token) (cs : List (Config Unit)) (c' : Config Unit),
      (rulesLoad plainOptions [some nameLine]).drop 0 = b.tokens ++ rest ∧
      Ran emptyHost (rulesLoad plainOptions [some nameLine]) true b
        { state := { event := { dev := {} }, host := () } } cs c' := by
  obtain ⟨horder,hatomic⟩ := rule_unordered_and_atomic plainOptions
  obtain ⟨ts,hts⟩ : ∃ ts, addRule plainOptions nameLine = some ts :=
    Option.isSome_iff_exists.mp (by decide)
  have hlen : ∀ ts ∈ addRule plainOptions nameLine, ts.length ≤ maxTk := by decide
  have hperm : Rearranges (KeepOrder plainOptions) (linePairs nameLine) (linePairs nameLine') :=
    ⟨(linePairs nameLine).zipIdx.reverse,List.reverse_perm _,by decide,by decide⟩
  have hsmall : SmallRules plainOptions [some nameLine] := by decide
  obtain ⟨r,hr⟩ : ∃ r, (rulesLoad plainOptions [some nameLine])[0]? = some (.rule r) := ⟨_,rfl⟩
  obtain ⟨b,rest,cs,c',hd,_,_,hran⟩ := hatomic _ hsmall Unit emptyHost true
    { state := { event := { dev := {} }, host := () } } r hr
  exact ⟨(horder nameLine nameLine' ts hts (hlen ts hts) hperm).1.trans hts.symm,hsmall,b,rest,cs,c',hd,hran⟩

def gotoRules : List (Option (List UInt8)) :=
  [some (str "GOTO=\"a\", GOTO=\"b\"\nLABEL=\"a\"\nLABEL=\"b\"\n")]

def typeOf : Token → Option TokenType
  | .key k => some k.type
  | _ => none

set_option maxRecDepth 8000 in
/-- The second of two GOTOs is not executed although the rule has no match. -/
theorem second_goto_not_executed : SmallRules plainOptions gotoRules ∧
    ((rulesLoad plainOptions gotoRules).take 3).map typeOf = [none,some .aGoto,some .aGoto] ∧
    tokenCount (rulesLoad plainOptions gotoRules) 0 = 3 ∧
    (applyVisits emptyHost (rulesLoad plainOptions gotoRules) { dev := {} } ()).map (·.cur) = [0,1,3,4,5] := by
  decide

end Rules
end Udev
