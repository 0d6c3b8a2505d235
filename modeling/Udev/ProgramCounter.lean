import Udev.StaticNodes

/-! The two loops over the tokens only move forward. Both are always at the start of a
rule, at the end, or at a key of the current rule; from there every move, a jump over a
rule or over parent keys and a GOTO included, leads to a later token of the array. -/
namespace Udev
namespace Rules

open Runs

/-- Where a loop over the tokens is: before a rule or at the end, or inside a rule. -/
inductive Located (ts : List Token) (cur rule : ℕ) : Prop
  | start (h : Blocks (ts.drop cur))
  | inside (b : Block) (rest : List Token) (hb : b.WellFormed) (hrest : Blocks rest)
      (hdrop : ts.drop rule = b.tokens ++ rest) (hlt : rule < cur) (hle : cur < rule+b.tokens.length)

inductive Move (ts : List Token) (cur rule : ℕ) : ℕ → ℕ → Prop
  | enter {r : RuleToken} (h : ts[cur]? = some (.rule r)) : Move ts cur rule (cur+1) cur
  | skip {r : RuleToken} (h : ts[cur]? = some (.rule r)) : Move ts cur rule (cur+r.tokenCount) cur
  | next {k : KeyToken} (h : ts[cur]? = some (.key k)) : Move ts cur rule (cur+1) rule
  | fail {k : KeyToken} (h : ts[cur]? = some (.key k)) :
      Move ts cur rule (rule+tokenCount ts rule) rule
  | parents {k : KeyToken} (h : ts[cur]? = some (.key k)) (hk : k.type.isParent = true) :
      Move ts cur rule (cur+(parentSeq (ts.drop cur)).length) rule
  | goto {k : KeyToken} (h : ts[cur]? = some (.key k)) (hk : k.ruleGoto ≠ 0) :
      Move ts cur rule k.ruleGoto rule

theorem Block.tokens_length (b : Block) : b.tokens.length = 1+b.keys.length := by
  simp [Block.tokens,Nat.add_comm]

theorem Blocks.not_key {ts : List Token} (h : Blocks ts) (k : KeyToken) : ts[0]? ≠ some (.key k) := by
  cases h <;> simp [Block.tokens]

theorem Blocks.ne_nil {ts : List Token} (h : Blocks ts) : ts ≠ [] := by
  cases h <;> simp [Block.tokens]

theorem Blocks.at_rule {ts : List Token} (h : Blocks ts) {n : ℕ} {r : RuleToken}
    (hr : ts[n]? = some (.rule r)) :
    ∃ (b : Block) (rest : List Token), b.WellFormed ∧ Blocks rest ∧ ts.drop n = b.tokens ++ rest ∧
      b.rule = r := by
  have hd := h.drop hr
  have h0 : (ts.drop n)[0]? = some (.rule r) := by simpa using hr
  generalize ts.drop n = l at hd h0
  cases hd with
  | tkEnd => simp at h0
  | block b rest hb hrest => exact ⟨b,rest,hb,hrest,rfl,by simpa [Block.tokens] using h0⟩

theorem parentSeq_blocks {ts : List Token} (h : Blocks ts) : parentSeq ts = [] := by
  cases h <;> rfl

theorem parentSeq_length (ks : List KeyToken) {rest : List Token} (h : Blocks rest) :
    (parentSeq (ks.map .key ++ rest)).length ≤ ks.length := by
  induction ks with
  | nil => simp [parentSeq_blocks h]
  | cons k ks ih =>
    simp only [List.map_cons,List.cons_append,parentSeq]
    split_ifs
    · simpa using ih
    · simp

section Located

variable {ts : List Token} {cur rule : ℕ}

theorem getElem?_of_drop {rule : ℕ} {l : List Token} (h : ts.drop rule = l) (n : ℕ) :
    ts[rule+n]? = l[n]? := by
  rw [← h,List.getElem?_drop]

theorem Located.of_block {b : Block} {rest : List Token} (hb : b.WellFormed) (hrest : Blocks rest)
    (hdrop : ts.drop rule = b.tokens ++ rest) (hlt : rule < cur) (hle : cur ≤ rule+b.tokens.length) :
    Located ts cur rule := by
  rcases Nat.lt_or_eq_of_le hle with hle | rfl
  · exact .inside b rest hb hrest hdrop hlt hle
  · refine .start ?_
    rw [← List.drop_drop,hdrop,List.drop_left]
    exact hrest

theorem Located.lt_length (h : Located ts cur rule) : cur < ts.length := by
  cases h with
  | start h =>
    by_contra hge
    exact h.ne_nil (List.drop_eq_nil_of_le (not_lt.mp hge))
  | inside b rest hb hrest hdrop hlt hle =>
    have := congrArg List.length hdrop
    simp only [List.length_drop,List.length_append] at this
    omega

/-- The tokens from a key on are the keys that are left and the rules behind. -/
theorem drop_inside {b : Block} {rest : List Token} (hdrop : ts.drop rule = b.tokens ++ rest)
    (hlt : rule < cur) (hle : cur < rule+b.tokens.length) :
    ts.drop cur = (b.keys.drop (cur-rule-1)).map .key ++ rest := by
  obtain ⟨n,rfl⟩ : ∃ n, cur = rule+(n+1) := ⟨cur-rule-1,by omega⟩
  have hn : n ≤ b.keys.length := by
    rw [b.tokens_length] at hle
    omega
  rw [← List.drop_drop,hdrop,Nat.add_sub_cancel_left,Nat.add_sub_cancel,Block.tokens,List.cons_append,
    List.drop_succ_cons,List.drop_append_of_le_length (by simpa using hn),List.map_drop]

theorem parentSeq_pos {k : KeyToken} (h : ts[cur]? = some (.key k)) (hk : k.type.isParent = true) :
    0 < (parentSeq (ts.drop cur)).length := by
  obtain ⟨hlt,hget⟩ := List.getElem?_eq_some_iff.mp h
  rw [List.drop_eq_getElem_cons hlt,hget]
  simp [parentSeq,hk]

theorem tokenCount_block {b : Block} {rest : List Token} (hb : b.WellFormed)
    (hdrop : ts.drop rule = b.tokens ++ rest) : tokenCount ts rule = b.tokens.length := by
  have hr : ts[rule]? = some (.rule b.rule) := by simpa [Block.tokens] using getElem?_of_drop hdrop 0
  simp [tokenCount,hr,hb.count,b.tokens_length]

theorem Located.move (hb : Blocks ts) (hf : Forward ts) {cur' rule' : ℕ} (h : Located ts cur rule)
    (hm : Move ts cur rule cur' rule') : Located ts cur' rule' ∧ cur < cur' := by
  have hinside : ∀ {k : KeyToken}, ts[cur]? = some (.key k) →
      ∃ (b : Block) (rest : List Token), b.WellFormed ∧ Blocks rest ∧ ts.drop rule = b.tokens ++ rest ∧
        rule < cur ∧ cur < rule+b.tokens.length := by
    intro k hk
    cases h with
    | start h => exact absurd (by simpa using hk) (h.not_key k)
    | inside b rest hb hrest hdrop hlt hle => exact ⟨b,rest,hb,hrest,hdrop,hlt,hle⟩
  cases hm with
  | enter hr =>
    obtain ⟨b,rest,hb,hrest,hdrop,_⟩ := hb.at_rule hr
    have := b.tokens_length
    exact ⟨.of_block hb hrest hdrop (by omega) (by omega),by omega⟩
  | skip hr =>
    obtain ⟨b,rest,hb,hrest,hdrop,rfl⟩ := hb.at_rule hr
    have := b.tokens_length
    have := hb.count
    exact ⟨.of_block hb hrest hdrop (by omega) (by omega),by omega⟩
  | next hk =>
    obtain ⟨b,rest,hb,hrest,hdrop,hlt,hle⟩ := hinside hk
    exact ⟨.of_block hb hrest hdrop (by omega) (by omega),by omega⟩
  | fail hk =>
    obtain ⟨b,rest,hb,hrest,hdrop,hlt,hle⟩ := hinside hk
    rw [tokenCount_block hb hdrop]
    exact ⟨.of_block hb hrest hdrop (by omega) le_rfl,hle⟩
  | parents hk hparent =>
    obtain ⟨b,rest,hb,hrest,hdrop,hlt,hle⟩ := hinside hk
    have hpos := parentSeq_pos hk hparent
    have hlen := parentSeq_length (b.keys.drop (cur-rule-1)) hrest
    rw [← drop_inside hdrop hlt hle,List.length_drop] at hlen
    rw [b.tokens_length] at hle
    exact ⟨.of_block hb hrest hdrop (by omega) (by rw [b.tokens_length]; omega),by omega⟩
  | goto hk hgoto =>
    obtain ⟨hlt,r,hr⟩ := hf cur _ hk hgoto
    exact ⟨.start (hb.drop hr),hlt⟩

/-- The scan for the end of a sequence of parent keys stops inside the array. -/
theorem Located.parentSeq_lt (h : Located ts cur rule) :
    cur+(parentSeq (ts.drop cur)).length < ts.length := by
  cases h with
  | start h =>
    rw [parentSeq_blocks h]
    have hloc : Located ts cur rule := .start h
    exact hloc.lt_length
  | inside b rest hb hrest hdrop hlt hle =>
    have hd := drop_inside hdrop hlt hle
    have hlen := parentSeq_length (b.keys.drop (cur-rule-1)) hrest
    have hpos := List.length_pos_of_ne_nil hrest.ne_nil
    have htotal := congrArg List.length hd
    rw [← hd] at hlen
    simp only [List.length_drop,List.length_append,List.length_map] at htotal hlen
    omega

end Located

section Event

variable {σ : Type} {h : Host σ} {ts : List Token} {canSet : Bool} {c c' : Config σ}

theorem step_move (hs : step h ts canSet c = some c') : Move ts c.cur c.rule c'.cur c'.rule := by
  unfold step at hs
  simp only at hs
  split at hs
  · next r hr =>
    have hcount : tokenCount ts c.cur = r.tokenCount := by simp [tokenCount,hr]
    split_ifs at hs <;> cases hs
    · simp only [Config.nomatch,hcount]
      exact .skip hr
    · exact .enter hr
  · next k hk =>
    cases hs
    unfold stepKey
    simp only
    split_ifs with hp _ _ hg
    · exact .parents hk hp
    · exact .fail hk
    · exact .goto hk hg.2
    · exact .next hk
    · exact .next hk
    · exact .fail hk
  · cases hs
  · cases hs

theorem step_none (hr : c.cur < ts.length) (hs : step h ts canSet c = none) :
    ts[c.cur]? = some .tkEnd := by
  unfold step at hs
  simp only at hs
  split at hs
  · split_ifs at hs
  · cases hs
  · assumption
  · next hn => exact absurd (List.getElem?_eq_none_iff.mp hn) (not_le.mpr hr)

end Event

section Static

variable {σ : Type} {ops : FileOps σ} {ts : List Token} {c c' : StaticConfig σ}

theorem staticNode_place (ops : FileOps σ) (c : StaticConfig σ) (value : CString) :
    (staticNode ops c value).2.cur = c.cur ∧ (staticNode ops c value).2.rule = c.rule := by
  unfold staticNode
  simp only
  split_ifs
  · exact ⟨rfl,rfl⟩
  all_goals
    split
    · exact ⟨rfl,rfl⟩
    · split_ifs <;> exact ⟨rfl,rfl⟩

structure FileOps.Succeed (ops : FileOps σ) : Prop where
  pathCreate : ∀ s path, (ops.pathCreate s path).1 = true
  symlink : ∀ s target path, (ops.symlink s target path).1 = true
  chmod : ∀ s path mode, (ops.chmod s path mode).1 = true
  chown : ∀ s path uid gid, (ops.chown s path uid gid).1 = true

theorem exportTags_succeed (hops : ops.Succeed) (node value : CString) (tags : List CString) (s : σ) :
    (exportTags ops node value tags s).1 = true := by
  induction tags generalizing s with
  | nil => rfl
  | cons t tags ih => simp [exportTags,hops.pathCreate,hops.symlink,ih]

theorem setPerms_succeed (hops : ops.Succeed) (node : CString) (stats : Stat) (mode uid gid : ℕ) (s : σ) :
    (setPerms ops node stats mode uid gid s).1 = true := by
  unfold setPerms
  split_ifs <;> simp_all [hops.chmod,hops.chown]

theorem staticNode_succeed (hops : ops.Succeed) (c : StaticConfig σ) (value : CString) :
    (staticNode ops c value).1 ≠ .fail := by
  unfold staticNode
  by_cases hunset : c.mode = 0 ∧ c.uid = 0 ∧ c.gid = 0 ∧ c.tags = []
  · simp [hunset]
  · rw [if_neg hunset]
    cases hstat : ops.stat c.host (Text.strscpyl Text.utilPathSize [str "/dev/",value]) with
    | none => simp [hstat]
    | some stats =>
      simp only [hstat,exportTags_succeed hops,setPerms_succeed hops]
      by_cases hdev : stats.isDevice = true
      · simp only [hdev]
        by_cases hperm : c.mode = 0 ∧ c.uid = 0 ∧ c.gid = 0 <;> simp [hperm]
      · simp [hdev]

theorem staticKey_place (ops : FileOps σ) (c : StaticConfig σ) (k : KeyToken) :
    (staticKey ops c k).2.cur = c.cur ∧ (staticKey ops c k).2.rule = c.rule := by
  unfold staticKey
  split
  all_goals first | exact ⟨rfl,rfl⟩ | exact staticNode_place ops c _

/-- What one round of the loop over the static nodes does to its place. -/
theorem staticStep_move (hs : staticStep ops ts c = some c') : Move ts c.cur c.rule c'.cur c'.rule := by
  unfold staticStep at hs
  split at hs
  · next r hr =>
    split_ifs at hs <;> cases hs
    · exact .skip hr
    · exact .enter hr
  · next k hk =>
    have hplace := staticKey_place ops c k
    split at hs
    · next c₁ hc =>
      cases hs
      rw [hc] at hplace
      obtain ⟨h₁,h₂⟩ : c₁.cur = c.cur ∧ c₁.rule = c.rule := hplace
      simp only [h₁,h₂]
      exact .next hk
    · next c₁ hc =>
      cases hs
      rw [hc] at hplace
      obtain ⟨_,h₂⟩ : c₁.cur = c.cur ∧ c₁.rule = c.rule := hplace
      simp only [h₂]
      exact .fail hk
    · cases hs
  · cases hs
  · cases hs

/-- The loop over the static nodes returns at the end, or where a call fails. -/
theorem staticStep_none (hr : c.cur < ts.length) (hs : staticStep ops ts c = none) :
    ts[c.cur]? = some .tkEnd ∨
      ∃ k, ts[c.cur]? = some (.key k) ∧ k.type = .aStaticNode ∧ (staticNode ops c k.value).1 = .fail := by
  unfold staticStep at hs
  split at hs
  · split_ifs at hs
  · next k hk =>
    refine Or.inr ⟨k,hk,?_⟩
    split at hs
    · cases hs
    · cases hs
    · next c₁ hc =>
      unfold staticKey at hc
      split at hc
      all_goals first | (next htype => exact ⟨htype,by rw [hc]⟩) | cases hc
  · next ht => exact Or.inl ht
  · next hn => exact absurd (List.getElem?_eq_none_iff.mp hn) (not_le.mpr hr)

end Static

/-- For rules that fit the temporary rule, the token array is a concatenation of blocks
with GOTOs that lead forward in their file, and both loops over it visit ever later
tokens of the array and return: the interpreter of an event at the end, and the loop over
the static nodes there too unless a change of the file system fails. -/
theorem loaded_rules_finish (o : Options) (files : List (Option (List UInt8)))
    (hsmall : SmallRules o files) :
    rulesLoad o files = (fileSegments o 0 files).flatten ++ [.tkEnd] ∧
    Compiled (fileSegments o 0 files) ∧
    (∀ (σ : Type) (h : Host σ) (ev : Event) (s : σ),
      (applyVisits h (rulesLoad o files) ev s).Pairwise (·.cur < ·.cur) ∧
      (∀ c ∈ applyVisits h (rulesLoad o files) ev s, c.cur < (rulesLoad o files).length ∧
        c.cur+(parentSeq ((rulesLoad o files).drop c.cur)).length < (rulesLoad o files).length) ∧
      ∃ c, (applyVisits h (rulesLoad o files) ev s).getLast? = some c ∧
        step h (rulesLoad o files) (canSetName ev) c = none ∧ (rulesLoad o files)[c.cur]? = some .tkEnd) ∧
    ∀ (σ : Type) (ops : FileOps σ) (s : σ),
      (staticVisits ops (rulesLoad o files) s).Pairwise (·.cur < ·.cur) ∧
      (∀ c ∈ staticVisits ops (rulesLoad o files) s, c.cur < (rulesLoad o files).length) ∧
      ∃ c, (staticVisits ops (rulesLoad o files) s).getLast? = some c ∧
        staticStep ops (rulesLoad o files) c = none ∧
        ((rulesLoad o files)[c.cur]? = some .tkEnd ∨ ¬ops.Succeed ∧
          ∃ k, (rulesLoad o files)[c.cur]? = some (.key k) ∧ k.type = .aStaticNode ∧
            (staticNode ops c k.value).1 = .fail) := by
  have hload := rulesLoad_segments hsmall
  have hcomp := fileSegments_compiled hsmall
  have hblocks : Blocks (rulesLoad o files) := hload ▸ hcomp.blocks_flatten
  have hforward : Forward (rulesLoad o files) := hload ▸ hcomp.forward
  have hfirst : Located (rulesLoad o files) 0 0 := .start (by simpa using hblocks)
  refine ⟨hload,hcomp,fun σ h ev s => ?_,fun σ ops s => ?_⟩
  · have hstep : ∀ c c' : Config σ, Located (rulesLoad o files) c.cur c.rule →
        step h (rulesLoad o files) (canSetName ev) c = some c' →
        Located (rulesLoad o files) c'.cur c'.rule ∧ c.cur < c'.cur := fun c c' hc hs =>
      hc.move hblocks hforward (step_move hs)
    have hinit : Located (rulesLoad o files) (Config.cur ⟨0,0,{ event := ev, host := s }⟩) 0 := hfirst
    obtain ⟨c,hlast,hloc,hnone⟩ := visits_last hstep (fun c hc => hc.lt_length) hinit
      (Nat.le_add_left (rulesLoad o files).length _)
    refine ⟨(visits_increasing hstep hinit).1,fun c hc => ?_,c,hlast,hnone,step_none hloc.lt_length hnone⟩
    have hloc := visits_invariant (fun c c' hc hs => (hstep c c' hc hs).1) hinit hc
    exact ⟨hloc.lt_length,hloc.parentSeq_lt⟩
  · have hstep : ∀ c c' : StaticConfig σ, Located (rulesLoad o files) c.cur c.rule →
        staticStep ops (rulesLoad o files) c = some c' →
        Located (rulesLoad o files) c'.cur c'.rule ∧ c.cur < c'.cur := fun c c' hc hs =>
      hc.move hblocks hforward (staticStep_move hs)
    have hinit : Located (rulesLoad o files) (StaticConfig.cur ⟨0,0,0,0,0,[],s⟩) 0 := hfirst
    obtain ⟨c,hlast,hloc,hnone⟩ := visits_last hstep (fun c hc => hc.lt_length) hinit
      (Nat.le_add_left (rulesLoad o files).length _)
    refine ⟨(visits_increasing hstep hinit).1,fun c hc => ?_,c,hlast,hnone,
      (staticStep_none hloc.lt_length hnone).imp_right fun ⟨k,hk,htype,hfail⟩ =>
        ⟨fun hops => staticNode_succeed hops c k.value hfail,k,hk,htype,hfail⟩⟩
    exact (visits_invariant (fun c c' hc hs => (hstep c c' hc hs).1) hinit hc).lt_length

/-- One rule for a static node with a mode. -/
def nullRules : List (Option (List UInt8)) :=
  [some (str "KERNEL==\"null\", MODE=\"0600\", OPTIONS+=\"static_node=null\"\n")]

/-- A character device whose mode can not be changed. -/
def readOnlyOps : FileOps Unit where
  stat _ _ := some { mode := 0o020666 }
  pathCreate _ _ := (true,())
  symlink _ _ _ := (true,())
  chmod _ _ _ := (false,())
  chown _ _ _ _ := (true,())
  utimensat _ _ := ()

set_option maxRecDepth 8000 in
theorem loaded_rules_finish_null : SmallRules plainOptions nullRules ∧
    Compiled (fileSegments plainOptions 0 nullRules) ∧
    ∃ c, (staticVisits readOnlyOps (rulesLoad plainOptions nullRules) ()).getLast? = some c ∧
      staticStep readOnlyOps (rulesLoad plainOptions nullRules) c = none := by
  have hsmall : SmallRules plainOptions nullRules := by decide
  obtain ⟨_,hcomp,_,hstatic⟩ := loaded_rules_finish plainOptions nullRules hsmall
  obtain ⟨_,_,c,hlast,hnone,_⟩ := hstatic Unit readOnlyOps ()
  exact ⟨hsmall,hcomp,c,hlast,hnone⟩

set_option maxRecDepth 8000 in
/-- The loop over the static nodes returns at the node whose `chmod` fails. -/
theorem static_nodes_stop_at_failure : SmallRules plainOptions nullRules ∧
    ∀ c, (staticVisits readOnlyOps (rulesLoad plainOptions nullRules) ()).getLast? = some c →
      (rulesLoad plainOptions nullRules)[c.cur]? ≠ some .tkEnd := by
  have hlast : (staticVisits readOnlyOps (rulesLoad plainOptions nullRules) ()).getLast?.map (·.cur) =
    some 3 := by decide
  have htoken : (rulesLoad plainOptions nullRules)[3]? ≠ some .tkEnd := by decide
  refine ⟨by decide,fun c hc => ?_⟩
  rw [hc] at hlast
  have hcur : c.cur = 3 := Option.some.inj hlast
  rw [hcur]
  exact htoken

end Rules
end Udev
