import Udev.RuleMeaning

/-! What rules mean for static nodes: each rule that names one collects its permissions and tags
anew and gives them to the nodes behind them; matches, labels and GOTOs are not looked at. -/
namespace Udev
namespace Rules

open CString RuleLine Text Runs

section Meaning

variable {σ : Type} (ops : FileOps σ)

def staticKeys : List KeyToken → StaticConfig σ → Outcome × StaticConfig σ
  | [], c => (.next,c)
  | k::ks, c =>
    let r := staticKey ops c k
    if r.1 = .next then staticKeys ks r.2 else r

/-- The rules in their order; `none` when a change of the file system fails. -/
def runStatic : List Block → σ → Option σ
  | [], s => some s
  | b::rules, s =>
    if !b.rule.hasStaticNode then runStatic rules s
    else
      let r := staticKeys ops b.keys { host := s }
      if r.1 = .fail then none else runStatic rules r.2.host

def allRules (o : Options) (files : List (Option (List UInt8))) : List Block :=
  files.flatMap fun file => file.elim [] (fileRules o)

end Meaning

section Keys

variable {σ : Type} (ops : FileOps σ)

def StaticConfig.at (c : StaticConfig σ) (cur rule : ℕ) : StaticConfig σ := { c with cur := cur, rule := rule }

theorem staticNode_at (c : StaticConfig σ) (value : CString) (cur rule : ℕ) :
    staticNode ops (c.at cur rule) value =
      ((staticNode ops c value).1,(staticNode ops c value).2.at cur rule) := by
  obtain ⟨f,hf⟩ : ∃ f : Outcome × StaticConfig σ → Outcome × StaticConfig σ,
      ∀ r, f r = (r.1,r.2.at cur rule) := ⟨_,fun _ => rfl⟩
  rw [← hf]
  cases hstat : ops.stat c.host (strscpyl utilPathSize [str "/dev/",value]) with
  | none => simp only [staticNode,StaticConfig.at,hstat,apply_ite f,hf]
  | some stats =>
    simp only [staticNode,StaticConfig.at,hstat,apply_ite f,hf]
    rfl

theorem staticKey_at (c : StaticConfig σ) (k : KeyToken) (cur rule : ℕ) :
    staticKey ops (c.at cur rule) k = ((staticKey ops c k).1,(staticKey ops c k).2.at cur rule) := by
  unfold staticKey
  split
  all_goals first | rfl | exact staticNode_at ops c _ cur rule

theorem staticKey_linkKey (i : ℕ) (rules : List Block) (c : StaticConfig σ) (k : KeyToken) :
    staticKey ops c (linkKey i rules k) = staticKey ops c k := by
  unfold linkKey
  split_ifs with hg
  · simp [staticKey,hg]
  · rfl

theorem staticKeys_linkKey (i : ℕ) (rules : List Block) (ks : List KeyToken) (c : StaticConfig σ) :
    staticKeys ops (ks.map (linkKey i rules)) c = staticKeys ops ks c := by
  induction ks generalizing c with
  | nil => rfl
  | cons k ks ih => simp only [List.map_cons,staticKeys,staticKey_linkKey,ih]

end Keys

section Simulation

variable {σ : Type} {ops : FileOps σ} {ts : List Token}

/-- The loop stops at a key whose change of the file system fails. -/
def StopsAt (ops : FileOps σ) (ts : List Token) (c : StaticConfig σ) : Prop :=
  ∃ k, ts[c.cur]? = some (.key k) ∧ (staticKey ops c k).1 = .fail

/-- From the keys of a rule on, the loop comes to the next rule, or it stops. -/
theorem static_keys (ops : FileOps σ) {b : Block} {rest : List Token} (hb : b.WellFormed) {rule : ℕ}
    (hdrop : ts.drop rule = b.tokens ++ rest) (ks : List KeyToken) (c d : StaticConfig σ)
    (hc : c = d.at c.cur rule) (hd : ts.drop c.cur = ks.map .key ++ rest)
    (hend : c.cur+ks.length = rule+b.tokens.length) :
    ∃ cs c', Path (staticStep ops ts) c cs c' ∧
      (((staticKeys ops ks d).1 ≠ .fail ∧ c'.cur = rule+b.tokens.length ∧ c'.host = (staticKeys ops ks d).2.host) ∨
        (staticKeys ops ks d).1 = .fail ∧ StopsAt ops ts c') := by
  induction ks generalizing c d with
  | nil =>
    refine ⟨[],c,.nil c,Or.inl ⟨by simp [staticKeys],by simpa using hend,?_⟩⟩
    rw [hc]
    rfl
  | cons k ks ih =>
    have hk : ts[c.cur]? = some (.key k) := by simpa using getElem?_of_drop hd 0
    have hat : staticKey ops c k = ((staticKey ops d k).1,(staticKey ops d k).2.at c.cur rule) := by
      rw [hc]
      exact staticKey_at ops d k _ _
    have hplace := staticKey_place ops c k
    have hrule : c.rule = rule := by rw [hc]; rfl
    cases ho : (staticKey ops d k).1 with
    | next =>
      have hstep : staticStep ops ts c = some ((staticKey ops d k).2.at (c.cur+1) rule) := by
        simp only [staticStep,hk,hat,ho]
        rfl
      have hkeys : staticKeys ops (k::ks) d = staticKeys ops ks (staticKey ops d k).2 := by
        simp [staticKeys,ho]
      obtain ⟨cs,c',hpath,hout⟩ := ih ((staticKey ops d k).2.at (c.cur+1) rule) (staticKey ops d k).2 rfl
        (by
          change ts.drop (c.cur+1) = _
          rw [← List.drop_drop,hd]
          rfl)
        (by
          change c.cur+1+ks.length = _
          rw [← hend,List.length_cons]
          omega)
      exact ⟨c::cs,c',.cons hstep hpath,by rw [hkeys]; exact hout⟩
    | nextRule =>
      have hkeys : staticKeys ops (k::ks) d = staticKey ops d k := by simp [staticKeys,ho]
      have hstep : staticStep ops ts c = some ((staticKey ops d k).2.at (rule+b.tokens.length) rule) := by
        simp only [staticStep,hk,hat,ho]
        change some { (staticKey ops d k).2.at c.cur rule with cur := rule+tokenCount ts rule } = _
        rw [tokenCount_block hb hdrop]
        rfl
      exact ⟨[c],_,.single hstep,Or.inl ⟨by simp [hkeys,ho],rfl,by rw [hkeys]; rfl⟩⟩
    | fail =>
      have hkeys : staticKeys ops (k::ks) d = staticKey ops d k := by simp [staticKeys,ho]
      exact ⟨[],c,.nil c,Or.inr ⟨by rw [hkeys,ho],k,hk,by rw [hat,ho]⟩⟩

def Linked (ops : FileOps σ) (b b' : Block) : Prop :=
  b'.rule = b.rule ∧ ∀ c, staticKeys ops b'.keys c = staticKeys ops b.keys c

/-- The loop runs through rules as they mean: to the token behind them, or to a failure. -/
theorem static_rules {rest : List Token} {rules rules' : List Block} (hr : ∀ b ∈ rules', b.WellFormed)
    (hsame : List.Forall₂ (Linked ops) rules rules') (c : StaticConfig σ) (hd : ts.drop c.cur = rules'.flatMap Block.tokens ++ rest) :
    ∃ cs c', Path (staticStep ops ts) c cs c' ∧
      (runStatic ops rules c.host).elim (StopsAt ops ts c') fun s =>
        ts.drop c'.cur = rest ∧ c'.host = s := by
  induction hsame generalizing c with
  | nil => exact ⟨[],c,.nil c,by simpa using hd,rfl⟩
  | @cons b b' rules rules' hb hsame ih =>
    obtain ⟨hrule,hkeys⟩ := hb
    have hb' : b'.WellFormed := hr b' (by simp)
    have hr' : ∀ b ∈ rules', b.WellFormed := fun b hb => hr b (by simp [hb])
    rw [List.flatMap_cons,List.append_assoc] at hd
    have hget : ts[c.cur]? = some (.rule b'.rule) := by simpa [Block.tokens] using getElem?_of_drop hd 0
    have hnext : ts.drop (c.cur+b'.tokens.length) = rules'.flatMap Block.tokens ++ rest := by
      rw [← List.drop_drop,hd]
      exact List.drop_left' rfl
    cases hnode : b.rule.hasStaticNode with
    | false =>
      have hcount : b'.rule.tokenCount = b'.tokens.length := by rw [hb'.count,b'.tokens_length]
      have hstep : staticStep ops ts c = some { c with rule := c.cur, cur := c.cur+b'.tokens.length } := by
        simp [staticStep,hget,hrule,hnode,← hcount]
      obtain ⟨cs,c',hpath,hout⟩ := ih hr' { c with rule := c.cur, cur := c.cur+b'.tokens.length } hnext
      exact ⟨c::cs,c',.cons hstep hpath,by simpa [runStatic,hnode] using hout⟩
    | true =>
      let c₁ : StaticConfig σ := { cur := c.cur+1, rule := c.cur, host := c.host }
      have hstep : staticStep ops ts c = some c₁ := by simp [staticStep,hget,hrule,hnode,c₁]
      obtain ⟨cs,c₂,hpath,hout⟩ := static_keys ops hb' hd b'.keys c₁ { host := c.host } rfl
        (by
          change ts.drop (c.cur+1) = _
          rw [← List.drop_drop,hd]
          rfl)
        (by
          rw [b'.tokens_length]
          change c.cur+1+_ = _
          omega)
      rw [hkeys] at hout
      rcases hout with ⟨hok,hcur,hhost⟩ | ⟨hfail,hstops⟩
      · obtain ⟨cs',c',hpath',hout'⟩ := ih hr' c₂ (by rw [hcur]; exact hnext)
        refine ⟨c::(cs ++ cs'),c',.cons hstep (hpath.append hpath'),?_⟩
        rw [hhost] at hout'
        simpa [runStatic,hnode,hok] using hout'
      · exact ⟨c::cs,c₂,.cons hstep hpath,by simpa [runStatic,hnode,hfail] using hstops⟩

theorem linkBlocks_linked (ops : FileOps σ) (i : ℕ) (rules : List Block) :
    List.Forall₂ (Linked ops) rules (linkBlocks i rules) := by
  induction rules generalizing i with
  | nil => exact .nil
  | cons b rules ih => exact .cons ⟨rfl,staticKeys_linkKey ops _ _ b.keys⟩ (ih _)

theorem fileSegments_linked {o : Options} {files : List (Option (List UInt8))} (hsmall : SmallRules o files)
    (ops : FileOps σ) (first : ℕ) :
    ∃ rules', (fileSegments o first files).flatten = rules'.flatMap Block.tokens ∧
      (∀ b ∈ rules', b.WellFormed) ∧ List.Forall₂ (Linked ops) (allRules o files) rules' := by
  induction files generalizing first with
  | nil => exact ⟨[],rfl,by simp,.nil⟩
  | cons f fs ih =>
    obtain ⟨rules',hflat,hwf,hsame⟩ := ih hsmall.tail (first+(fileSegment o first f).length)
    cases f with
    | none => exact ⟨rules',by simpa [fileSegments,fileSegment] using hflat,hwf,by simpa [allRules] using hsame⟩
    | some content =>
      refine ⟨linkBlocks first (fileRules o content) ++ rules',?_,fun b hb => ?_,?_⟩
      · rw [fileSegments,List.flatten_cons,hflat,fileSegment_rules hsmall.head,List.flatMap_append]
      · rcases List.mem_append.mp hb with hb | hb
        · exact linkBlocks_wellFormed (fileTokens_rules hsmall.head).2 first b hb
        · exact hwf b hb
      · exact List.rel_append (linkBlocks_linked ops first _) hsame

end Simulation

/-- The loop over the static nodes treats the rules of the files one by one: it comes to the end of
the rules in the state that they make, or it returns at a key whose change of the file system fails. -/
theorem static_nodes_as_meant (o : Options) (files : List (Option (List UInt8))) (hsmall : SmallRules o files)
    {σ : Type} (ops : FileOps σ) (s : σ) :
    ∃ c, (staticVisits ops (rulesLoad o files) s).getLast? = some c ∧
      (runStatic ops (allRules o files) s).elim (StopsAt ops (rulesLoad o files) c) fun s' =>
        (rulesLoad o files)[c.cur]? = some .tkEnd ∧ c.host = s' := by
  have hload := rulesLoad_segments hsmall
  have hcomp := fileSegments_compiled hsmall
  have hblocks : Blocks (rulesLoad o files) := hload ▸ hcomp.blocks_flatten
  have hforward : Forward (rulesLoad o files) := hload ▸ hcomp.forward
  obtain ⟨rules',hflat,hwf,hsame⟩ := fileSegments_linked hsmall ops 0
  obtain ⟨cs,c,hpath,hout⟩ := static_rules hwf hsame { host := s }
    (show (rulesLoad o files).drop 0 = rules'.flatMap Block.tokens ++ [.tkEnd] by simp [hload,hflat])
  have hend : (runStatic ops (allRules o files) s).elim (StopsAt ops (rulesLoad o files) c) fun s' =>
      (rulesLoad o files)[c.cur]? = some .tkEnd ∧ c.host = s' := by
    cases hr : runStatic ops (allRules o files) s with
    | none => simpa [hr] using hout
    | some s' =>
      simp only [hr,Option.elim_some] at hout ⊢
      exact ⟨by simpa using getElem?_of_drop hout.1 0,hout.2⟩
  have hnone : staticStep ops (rulesLoad o files) c = none := by
    cases hr : runStatic ops (allRules o files) s with
    | none =>
      rw [hr,Option.elim_none] at hend
      obtain ⟨k,hk,hfail⟩ := hend
      simp only [staticStep,hk]
      split <;> simp_all
    | some s' =>
      rw [hr,Option.elim_some] at hend
      simp [staticStep,hend.1]
  have hfirst : Located (rulesLoad o files) 0 0 := .start (by simpa using hblocks)
  have hlen := hpath.length_le (fun c => Located (rulesLoad o files) c.cur c.rule) (·.cur)
    (fun c c' hc hs => hc.move hblocks hforward (staticStep_move hs)) hfirst
  have := hlen.1.lt_length
  refine ⟨c,?_,hend⟩
  rw [staticVisits,hpath.visits hnone (by omega),List.getLast?_concat]

/-- Rules for two static nodes in two files, and a rule for no static node between them. -/
def nodeRules : List (Option (List UInt8)) :=
  [some (str "KERNEL==\"null\", MODE=\"0666\", OPTIONS+=\"static_node=null\"\nKERNEL==\"sda\", MODE=\"0600\"\n"),
   some (str "KERNEL==\"tun\", MODE=\"0660\", OPTIONS+=\"static_node=net/tun\"\n")]

/-- Character devices, with the modes that they are given. -/
def nodeOps : FileOps (List (CString × ℕ)) where
  stat _ _ := some { mode := 0o020600 }
  pathCreate s _ := (true,s)
  symlink s _ _ := (true,s)
  chmod s path mode := (true,s ++ [(path,mode)])
  chown s _ _ _ := (true,s)
  utimensat s _ := s

theorem static_nodes_as_meant_nodes : SmallRules plainOptions nodeRules ∧
    ∃ c, (staticVisits nodeOps (rulesLoad plainOptions nodeRules) []).getLast? = some c ∧
      (rulesLoad plainOptions nodeRules)[c.cur]? = some .tkEnd ∧
      c.host = [(str "/dev/null",0o666),(str "/dev/net/tun",0o660)] := by
  have hsmall : SmallRules plainOptions nodeRules := by decide +kernel
  have hrun : runStatic nodeOps (allRules plainOptions nodeRules) [] =
      some [(str "/dev/null",0o666),(str "/dev/net/tun",0o660)] := by decide +kernel
  obtain ⟨c,hlast,hend⟩ := static_nodes_as_meant plainOptions nodeRules hsmall nodeOps []
  rw [hrun,Option.elim_some] at hend
  exact ⟨hsmall,c,hlast,hend⟩

end Rules
end Udev
