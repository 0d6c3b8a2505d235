import Udev.RulesFile

/-! The order of the pairs of a rule line. The tokens of a rule are sorted by type and
those of one type stay in order, so pairs may be exchanged unless they give tokens of one
type or are both labels. -/
namespace Udev
namespace Rules

open CString RuleLine StableSort

def Unlabelled (e : KeyEffect) : Prop := e.label = none

theorem unlabelled_addImport (op : Op) (value attr : CString) : Unlabelled (addImport op value attr) := by
  unfold addImport
  split_ifs <;> rfl

theorem unlabelled_addRun (op : Op) (value attr : CString) : Unlabelled (addRun op value attr) := by
  unfold addRun
  split_ifs <;> rfl

theorem unlabelled_addName (op : Op) (value : CString) : Unlabelled (addName op value) := by
  unfold addName
  split_ifs <;> rfl

theorem unlabelled_addKey (o : Options) {p : KeyPair} (hp : p.key ≠ str "LABEL") :
    Taken Unlabelled (addKey o p) := by
  have hm : ∀ type value data, Taken Unlabelled (matchOnly type p.op value data) := fun _ _ _ =>
    Taken.ite (taken_some rfl) taken_none
  unfold addKey
  dsimp only
  refine Taken.ite (hm _ _ _) (Taken.ite (hm _ _ _) (Taken.ite (hm _ _ _) ?_))
  refine Taken.ite (Taken.ite (hm _ _ _) (hm _ _ _)) (Taken.ite (hm _ _ _) ?_)
  refine Taken.ite (Taken.map fun _ => rfl) (Taken.ite (Taken.map fun _ => rfl) ?_)
  refine Taken.ite (hm _ _ _) (Taken.ite (hm _ _ _) (Taken.ite (hm _ _ _) ?_))
  refine Taken.ite (Taken.bind fun _ => hm _ _ _) (Taken.ite (hm _ _ _) ?_)
  refine Taken.ite (Taken.bind fun _ => ?_) ?_
  · exact Taken.ite (taken_some rfl) (Taken.ite taken_none (taken_some rfl))
  refine Taken.ite (taken_some rfl) (Taken.ite (taken_some rfl) (Taken.ite (hm _ _ _) ?_))
  refine Taken.ite (taken_some ?_) ?_
  · cases getKeyAttribute (p.key.drop 6) with
    | none => rfl
    | some a => exact unlabelled_addImport _ _ a
  refine Taken.ite (hm _ _ _) (Taken.ite (taken_some (unlabelled_addRun _ _ _)) ?_)
  refine Taken.ite (taken_some rfl) ?_
  rw [if_neg hp]
  refine Taken.ite (taken_some rfl) (Taken.ite (taken_some (unlabelled_addName _ _)) ?_)
  refine Taken.ite (taken_some rfl) (Taken.ite (taken_some rfl) (Taken.ite (taken_some rfl) ?_))
  exact Taken.ite (taken_some rfl) (Taken.ite (taken_some rfl) taken_none)

section Pairs

variable {o : Options} {tmp tmp' : RuleTmp} {ps ps' : List KeyPair}

def effect (o : Options) (p : KeyPair) : KeyEffect := (addKey o p).getD {}

def applyAll (o : Options) (tmp : RuleTmp) (ps : List KeyPair) : RuleTmp :=
  ps.foldl (fun tmp p => tmp.apply (effect o p)) tmp

theorem addPairs_applyAll (h : addPairs o tmp ps = some tmp') :
    (∀ p ∈ ps, (addKey o p).isSome) ∧ tmp' = applyAll o tmp ps := by
  induction ps generalizing tmp with
  | nil => exact ⟨by simp,(Option.some.inj h).symm⟩
  | cons p ps ih =>
    obtain ⟨tmp₁,h₁,h₂⟩ := Option.bind_eq_some_iff.mp h
    obtain ⟨e,he,hc⟩ := Option.bind_eq_some_iff.mp h₁
    split_ifs at hc
    obtain ⟨hall,rfl⟩ := ih h₂
    refine ⟨List.forall_mem_cons.mpr ⟨by simp [he],hall⟩,?_⟩
    rw [← Option.some.inj hc]
    simp [applyAll,effect,he]

theorem applyAll_token (o : Options) (tmp : RuleTmp) (ps : List KeyPair) :
    (applyAll o tmp ps).token = tmp.token ++ ps.flatMap fun p => (effect o p).tokens := by
  induction ps generalizing tmp with
  | nil => simp [applyAll]
  | cons p ps ih =>
    have := ih (tmp.apply (effect o p))
    simpa [applyAll,RuleTmp.apply] using this

theorem addPairs_of_room (htaken : ∀ p ∈ ps, (addKey o p).isSome)
    (hroom : (applyAll o tmp ps).token.length < maxTk) : addPairs o tmp ps = some (applyAll o tmp ps) := by
  induction ps generalizing tmp with
  | nil => rfl
  | cons p ps ih =>
    obtain ⟨e,he⟩ := Option.isSome_iff_exists.mp (htaken p (by simp))
    have heff : effect o p = e := by simp [effect,he]
    have hnext : applyAll o tmp (p::ps) = applyAll o (tmp.apply e) ps := by simp [applyAll,heff]
    rw [hnext] at hroom ⊢
    have hlen := congrArg List.length (applyAll_token o (tmp.apply e) ps)
    rw [List.length_append] at hlen
    have hsmall : ¬(e.checked ∧ (tmp.apply e).token.length ≥ maxTk) := fun h => by omega
    simp only [addPairs,addPair,he,Option.bind_some,if_neg hsmall]
    exact ih (fun q hq => htaken q (by simp [hq])) hroom

def lastLabel (o : Options) (label : CString) (ps : List KeyPair) : CString :=
  ps.foldl (fun l p => (effect o p).label.getD l) label

theorem applyAll_rule (o : Options) (tmp : RuleTmp) (ps : List KeyPair) :
    (applyAll o tmp ps).rule =
      { tmp.rule with
        canSetName := tmp.rule.canSetName || ps.any fun p => (effect o p).canSetName
        hasStaticNode := tmp.rule.hasStaticNode || ps.any fun p => (effect o p).hasStaticNode
        label := lastLabel o tmp.rule.label ps } := by
  induction ps generalizing tmp with
  | nil => simp [applyAll,lastLabel]
  | cons p ps ih =>
    have := ih (tmp.apply (effect o p))
    simpa [applyAll,RuleTmp.apply,lastLabel,Bool.or_assoc] using this

theorem lastLabel_filter (o : Options) (label : CString) (ps : List KeyPair) :
    lastLabel o label ps = lastLabel o label (ps.filter (·.key = str "LABEL")) := by
  induction ps generalizing label with
  | nil => rfl
  | cons p ps ih =>
    by_cases hp : p.key = str "LABEL"
    · simpa [lastLabel,hp] using ih _
    · have hnone : (effect o p).label = none := by
        cases he : addKey o p with
        | none => simp [effect,he]
        | some e =>
          have hl : e.label = none := unlabelled_addKey o hp e he
          simpa [effect,he] using hl
      simpa [lastLabel,hp,hnone] using ih label

/-- Pairs whose order matters: they give tokens of one type or are both labels. -/
def KeepOrder (o : Options) (p q : KeyPair) : Prop :=
  (∃ x ∈ (effect o p).tokens, ∃ y ∈ (effect o q).tokens, x.type = y.type) ∨
    p.key = str "LABEL" ∧ q.key = str "LABEL"

instance (o : Options) (p q : KeyPair) : Decidable (KeepOrder o p q) :=
  inferInstanceAs (Decidable ((∃ x ∈ (effect o p).tokens, ∃ y ∈ (effect o q).tokens, x.type = y.type) ∨
    p.key = str "LABEL" ∧ q.key = str "LABEL"))

theorem sortToken_rearranged (h : Rearranges (KeepOrder o) ps ps')
    (hnew : ∀ p ∈ ps, ∀ t ∈ (effect o p).tokens, NewToken t) :
    sortToken (ps'.flatMap fun p => (effect o p).tokens) =
      sortToken (ps.flatMap fun p => (effect o p).tokens) := by
  have hR : Rearranges (fun a b => ∃ x ∈ (effect o a).tokens, ∃ y ∈ (effect o b).tokens,
      x.type.code = y.type.code) ps ps' := h.mono fun a b ⟨x,hx,y,hy,he⟩ =>
    Or.inl ⟨x,hx,y,hy,TokenType.code_injective he⟩
  have hall : ∀ qs : List KeyPair, (∀ q ∈ qs, q ∈ ps) →
      ∀ t ∈ qs.flatMap fun p => (effect o p).tokens, NewToken t := by
    intro qs hqs t ht
    obtain ⟨q,hq,ht⟩ := List.mem_flatMap.mp ht
    exact hnew q (hqs q hq) t ht
  have hsorts := hR.sorts_flatMap (sortToken_new (hall ps fun _ hq => hq))
  exact (sortToken_new (hall ps' fun q hq => h.perm.subset hq)).unique hsorts

theorem addPairs_rearranged (h : Rearranges (KeepOrder o) ps ps') (hadd : addPairs o {} ps = some tmp)
    (hroom : tmp.token.length < maxTk) :
    ∃ tmp', addPairs o {} ps' = some tmp' ∧ ruleBlock tmp' = ruleBlock tmp := by
  obtain ⟨htaken,rfl⟩ := addPairs_applyAll hadd
  have hperm := h.perm
  have htoken : ∀ qs, (applyAll o {} qs).token = qs.flatMap fun p => (effect o p).tokens := fun qs => by
    simpa using applyAll_token o {} qs
  have hlen : (applyAll o {} ps').token.length = (applyAll o {} ps).token.length := by
    rw [htoken,htoken]
    exact (hperm.flatMap_right _).length_eq
  refine ⟨_,addPairs_of_room (fun p hp => htaken p (hperm.subset hp)) (hlen ▸ hroom),?_⟩
  have hnew : ∀ p ∈ ps, ∀ t ∈ (effect o p).tokens, NewToken t := by
    intro p hp t ht
    obtain ⟨e,he⟩ := Option.isSome_iff_exists.mp (htaken p hp)
    exact takenNew_addKey o p e he t (by simpa [effect,he] using ht)
  have hlabel : lastLabel o [] ps' = lastLabel o [] ps := by
    rw [lastLabel_filter,lastLabel_filter o [] ps,h.filter_eq]
    intro a _ b _ ha hb
    exact Or.inr ⟨of_decide_eq_true ha,of_decide_eq_true hb⟩
  have hrule : (applyAll o {} ps').rule = (applyAll o {} ps).rule := by
    rw [applyAll_rule,applyAll_rule,hlabel,hperm.any_eq,hperm.any_eq]
  have hsort : sortToken (applyAll o {} ps').token = sortToken (applyAll o {} ps).token := by
    rw [htoken,htoken]
    exact sortToken_rearranged h hnew
  simp only [ruleBlock,hrule,hsort,hlen]

end Pairs

/-- A line with its pairs in another order is compiled to the same block. -/
theorem addRule_rearranged {o : Options} {line line' : CString} {ts : List Token}
    (h : Rearranges (KeepOrder o) (linePairs line) (linePairs line')) (hadd : addRule o line = some ts)
    (hlen : ts.length ≤ maxTk) : addRule o line' = some ts := by
  obtain ⟨tmp,htmp,rfl⟩ := Option.map_eq_some_iff.mp hadd
  have hroom : tmp.token.length < maxTk := by
    have := sortToken_length tmp.token
    simp only [ruleBlock,List.length_cons,List.length_map] at hlen
    omega
  obtain ⟨tmp',htmp',hblock⟩ := addPairs_rearranged h htmp hroom
  exact Option.map_eq_some_iff.mpr ⟨tmp',htmp',hblock⟩

theorem rulesLoad_rearranged {o : Options} {content content' : List UInt8} {pre post : List CString}
    {line line' : CString} (hc : fileLines content = pre ++ line::post)
    (hc' : fileLines content' = pre ++ line'::post) (hline : addRule o line' = addRule o line)
    (before after : List (Option (List UInt8))) :
    rulesLoad o (before ++ some content'::after) = rulesLoad o (before ++ some content::after) := by
  have htokens : fileTokens o content' = fileTokens o content := by
    simp [fileTokens,hc,hc',hline]
  have hparse : ∀ tokens, parseFile o tokens (some content') = parseFile o tokens (some content) := fun tokens => by
    simp only [parseFile,Option.elim_some,htokens]
  simp [rulesLoad,hparse]

end Rules
end Udev
