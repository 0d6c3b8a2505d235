import Mathlib.Data.List.GetD
import Udev.CheckRule

/-! Where `udevrule` and the daemon agree about a clause: the text of the clause is taken apart by
both, and each looks the key up in its own way. -/
namespace Udev
namespace CheckRule

open CString RuleLine RoundTrip Rules

open scoped List

/-- A clause of a line: a key, an operator and a value that is not empty. -/
structure Clause (i : Item) : Prop extends i.Readable where
  before_nil : i.before = []
  value_ne : i.value ≠ []
  line : chr '\n' ∉ i.print

def clauseLine (i : Item) : CString := i.print ++ [chr '\n']

def Accepts (i : Item) : Prop := 0 < check (ruleGetclause (clauseLine i)).1

/-- `add_rule` reads the line to its end, makes a rule of it and ignores no key. -/
def Takes (o : Options) (place : CString) (line : CString) : Prop :=
  Whole line ∧ addRule o line ≠ none ∧ ∀ p ∈ linePairs line, ignored place p = none

def Cut (s : CString) : Prop := ∃ pre post, s = pre ++ chr ','::post ∧ pre.count (chr '"') % 2 = 0

theorem split_append {pre post A R : CString} {c : UInt8} (h : pre ++ c::post = A ++ R) :
    (∃ a, A = pre ++ c::a) ∨ ∃ pre', pre = A ++ pre' ∧ R = pre' ++ c::post := by
  rcases List.append_eq_append_iff.mp h with ⟨t,rfl,ht⟩ | ⟨t,rfl,ht⟩
  · cases t with
    | nil => exact Or.inr ⟨[],by simp,by simpa using ht.symm⟩
    | cons d t =>
      obtain ⟨rfl,-⟩ := List.cons.inj ht
      exact Or.inl ⟨t,rfl⟩
  · exact Or.inr ⟨t,rfl,ht⟩

section Getclause

variable {s : CString} {q : Bool} (rest : CString)

def CutFrom (q : Bool) (s : CString) : Prop :=
  ∃ pre post, s = pre ++ chr ','::post ∧ (q.toNat+pre.count (chr '"')) % 2 = 0

theorem cutFrom_cons {c : UInt8} (hc : ¬(q = false ∧ c = chr ',')) :
    CutFrom q (c::s) ↔ CutFrom (if c = chr '"' then !q else q) s := by
  have hcount : ∀ pre : CString, (q.toNat+(c::pre).count (chr '"')) % 2 =
      ((if c = chr '"' then !q else q).toNat+pre.count (chr '"')) % 2 := by
    intro pre
    rw [List.count_cons]
    by_cases hq : c = chr '"'
    · cases q <;> simp [hq] <;> omega
    · simp [hq]
  constructor
  · rintro ⟨pre,post,hs,hodd⟩
    cases pre with
    | nil =>
      obtain ⟨rfl,rfl⟩ := List.cons.inj hs
      refine absurd ⟨?_,rfl⟩ hc
      cases q
      · rfl
      · exact absurd hodd (by simp)
    | cons d pre =>
      obtain ⟨rfl,rfl⟩ := List.cons.inj hs
      exact ⟨pre,post,rfl,(hcount pre).symm.trans hodd⟩
  · rintro ⟨pre,post,rfl,hodd⟩
    exact ⟨c::pre,post,rfl,(hcount pre).trans hodd⟩

theorem getclause_whole (hs : chr '\n' ∉ s) (hcut : ¬CutFrom q s) :
    getclause q (s ++ chr '\n'::rest) = (s,chr '\n'::rest) := by
  induction s generalizing q with
  | nil => simp [getclause]
  | cons c s ih =>
    obtain ⟨hc,hs⟩ := not_or.mp (List.mem_cons.not.mp hs)
    have hcomma : ¬(q = false ∧ c = chr ',') := by
      rintro ⟨rfl,rfl⟩
      exact hcut ⟨[],s,rfl,rfl⟩
    have hrec := ih hs fun h => hcut ((cutFrom_cons hcomma).mpr h)
    rw [List.cons_append,getclause,if_neg (by simp [Ne.symm hc,hcomma]),hrec]

theorem getclause_cut (hs : chr '\n' ∉ s) (hcut : CutFrom q s) :
    ∃ pre post, s = pre ++ chr ','::post ∧ (getclause q (s ++ chr '\n'::rest)).1 = pre := by
  induction s generalizing q with
  | nil =>
    obtain ⟨pre,post,h,-⟩ := hcut
    simp at h
  | cons c s ih =>
    obtain ⟨hc,hs⟩ := not_or.mp (List.mem_cons.not.mp hs)
    by_cases hcomma : q = false ∧ c = chr ','
    · refine ⟨[],s,by rw [hcomma.2]; rfl,?_⟩
      rw [List.cons_append,getclause,if_pos (Or.inr hcomma)]
    · obtain ⟨pre,post,rfl,hpre⟩ := ih hs ((cutFrom_cons hcomma).mp hcut)
      refine ⟨c::pre,post,rfl,?_⟩
      rw [List.cons_append,getclause,if_neg (by simp [Ne.symm hc,hcomma])]
      exact congrArg _ hpre

end Getclause

section Value

theorem ruleValue_escape (v S : CString) (hS : v.getLast? = some (chr '\\') → charAt S 0 ≠ chr '"') :
    ruleValue false (escape v ++ S) = (v ++ (ruleValue false S).1,(ruleValue false S).2) := by
  induction v with
  | nil => rfl
  | cons c v ih =>
    have hS' : v.getLast? = some (chr '\\') → charAt S 0 ≠ chr '"' := by
      intro hlast
      refine hS ?_
      cases v with
      | nil => simp at hlast
      | cons d v => simpa [List.getLast?_cons] using hlast
    have hrec := ih hS'
    by_cases hc : c = chr '"'
    · subst hc
      have hbuf : escape (chr '"'::v) ++ S = chr '\\'::chr '"'::(escape v ++ S) := by simp [escape_cons]
      rw [hbuf,ruleValue,if_neg (by decide),if_pos ⟨rfl,rfl⟩,ruleValue,hrec]
      rfl
    · have hbuf : escape (c::v) ++ S = c::(escape v ++ S) := by simp [escape_cons,hc]
      rw [hbuf,ruleValue,if_neg hc,if_neg (escape_next c v S hS),hrec]
      rfl

theorem escape_comma {v pre post : CString} (h : escape v = pre ++ chr ','::post) :
    ∃ v' v'', v = v' ++ chr ','::v'' ∧ pre = escape v' := by
  induction v generalizing pre with
  | nil => simp [escape] at h
  | cons c v ih =>
    rw [escape_cons] at h
    rcases split_append h.symm with ⟨a,ha⟩ | ⟨pre',rfl,hv⟩
    · have hmem : chr ',' ∈ (if c = chr '"' then [chr '\\',c] else [c]) := by simp [ha]
      split_ifs at hmem ha with hc
      · subst hc
        exact absurd hmem (by decide)
      · obtain rfl := List.mem_singleton.mp hmem
        have hnil : pre = [] := by
          have := congrArg List.length ha
          simp at this
          exact List.length_eq_zero_iff.mp (by omega)
        exact ⟨[],v,rfl,hnil⟩
    · obtain ⟨v',v'',rfl,rfl⟩ := ih hv
      exact ⟨c::v',v'',rfl,by rw [escape_cons]⟩

end Value

section Getkey

variable {i : Item}

theorem mem_of_ruleGetoper {p : CString} {r : Op × ℕ} (h : ruleGetoper p = some r) : chr '=' ∈ p := by
  have hmem : ∀ n, charAt p n = chr '=' → chr '=' ∈ p := by
    intro n hn
    by_cases hlen : n < p.length
    · rw [charAt,List.getD_eq_getElem _ _ hlen] at hn
      exact hn ▸ List.getElem_mem hlen
    · rw [charAt,List.getD_eq_default _ _ (not_lt.mp hlen)] at hn
      exact absurd hn (by decide)
  unfold ruleGetoper at h
  split_ifs at h with h₁ <;> first | exact hmem 1 h₁ | exact hmem 0 ‹_›

theorem ruleGetkey_no_eq {clause : CString} (h : chr '=' ∉ clause) : ∃ e, ruleGetkey clause = .error e := by
  simp only [ruleGetkey]
  split_ifs
  · exact ⟨_,rfl⟩
  · cases hop : ruleGetoper ((clause.dropWhile keyChar).dropWhile isspace) with
    | none => exact ⟨_,rfl⟩
    | some r =>
      have hmem := mem_of_ruleGetoper hop
      exact absurd ((List.dropWhile_sublist _).trans (List.dropWhile_sublist _) |>.subset hmem) h

theorem charAt_append_of_ne_nil {A : CString} (h : A ≠ []) (T : CString) : charAt (A ++ T) 0 = charAt A 0 := by
  obtain ⟨a,A,rfl⟩ := List.exists_cons_of_ne_nil h
  rfl

/-- The key ends for the checker at a plus, an exclamation mark or a colon, and no operator starts
there. -/
theorem ruleGetkey_special (hi : i.Readable) (hspecial : ¬∀ c ∈ i.key, keyChar c = true) (T : CString) :
    ruleGetkey (i.key ++ (i.afterKey ++ i.op.text ++ T)) = .error .oper := by
  obtain ⟨c,k,hck⟩ : ∃ c k, i.key.dropWhile keyChar = c::k := by
    refine List.exists_cons_of_ne_nil fun hnil => hspecial ?_
    exact List.dropWhile_eq_nil_iff.mp hnil
  have hsplit : i.key = i.key.takeWhile keyChar ++ c::k := by rw [← hck,List.takeWhile_append_dropWhile]
  have hmem : ∀ d ∈ c::k, d ∈ i.key := fun d hd => hsplit ▸ List.mem_append_right _ hd
  have hc : keyChar c = false := by
    have := List.head?_dropWhile_not keyChar i.key
    simpa [hck] using this
  obtain ⟨-,hspace,heq⟩ := hi.key c (hmem c List.mem_cons_self)
  have hnext : charAt (k ++ (i.afterKey ++ i.op.text ++ T)) 0 ≠ chr '=' := by
    cases k with
    | cons d k =>
      exact (hi.key d (hmem d (by simp))).2.2
    | nil =>
      intro hop
      have hne : i.afterKey ++ i.op.text ≠ [] := by simp [op_text_ne_nil hi.op]
      rw [List.nil_append,charAt_append_of_ne_nil hne] at hop
      obtain ⟨h₁,h₂,h₃⟩ := hi.key_last hop c (by rw [hsplit,List.getLast?_concat]; rfl)
      simp [keyChar,hspace,heq,h₁,h₂,h₃] at hc
  have hdrop : ((i.key ++ (i.afterKey ++ i.op.text ++ T)).dropWhile keyChar).dropWhile isspace =
      c::(k ++ (i.afterKey ++ i.op.text ++ T)) := by
    rw [List.dropWhile_append,hck]
    simp [hspace]
  have hnone : ruleGetoper (c::(k ++ (i.afterKey ++ i.op.text ++ T))) = none := by
    have hone : charAt (c::(k ++ (i.afterKey ++ i.op.text ++ T))) 1 ≠ chr '=' := hnext
    rw [ruleGetoper,if_neg hone]
    exact if_neg heq
  simp only [ruleGetkey,hdrop,hnone]
  rw [if_neg (List.cons_ne_nil _ _)]

theorem ruleGetoper_text {op : Op} (hop : op ≠ .opUnset) {t : UInt8} (ht : t ≠ chr '=') (T : CString) :
    ruleGetoper (op.text ++ t::T) = some (op,op.text.length) := by
  cases op with
  | opUnset => exact absurd rfl hop
  | opMatch => rfl
  | opNomatch => rfl
  | opAdd => rfl
  | opAssign =>
    have hone : charAt (Op.opAssign.text ++ t::T) 1 ≠ chr '=' := ht
    rw [ruleGetoper,if_neg hone]
    rfl
  | opAssignFinal => rfl

theorem ruleGetkey_value (hi : i.Readable) (hplain : ∀ c ∈ i.key, keyChar c = true) (T : CString) :
    ruleGetkey (i.key ++ (i.afterKey ++ i.op.text ++ (i.afterOp ++ chr '"'::T))) =
      if charAt (ruleValue false T).2 0 ≠ chr '"' then .error .quotexp
      else if charAt (ruleValue false T).2 1 ≠ 0 then .error .value
      else .ok (i.key,i.op,(ruleValue false T).1) := by
  obtain ⟨x,X,hX,hx⟩ : ∃ x X, i.afterKey ++ i.op.text ++ (i.afterOp ++ chr '"'::T) = x::X ∧ keyChar x = false := by
    cases hafter : i.afterKey with
    | nil =>
      obtain ⟨c,S,hS,-,-,hc⟩ := op_text_head hi.op (i.afterOp ++ chr '"'::T)
      refine ⟨c,S,hS,?_⟩
      rcases hc with rfl | ⟨rfl | rfl | rfl,-⟩ <;> rfl
    | cons a as =>
      have hspace := hi.afterKey a (by simp [hafter])
      exact ⟨a,_,rfl,by simp [keyChar,hspace]⟩
  obtain ⟨t,T',hT,ht⟩ : ∃ t T', i.afterOp ++ chr '"'::T = t::T' ∧ t ≠ chr '=' := by
    cases hafter : i.afterOp with
    | nil => exact ⟨chr '"',T,rfl,by decide⟩
    | cons a as => exact ⟨a,_,rfl,(isspace_ne (hi.afterOp a (by simp [hafter]))).2.1⟩
  have htake : (i.key ++ x::X).takeWhile keyChar = i.key := by
    rw [List.takeWhile_append_of_pos hplain]
    simp [hx]
  have hdrop : (i.key ++ x::X).dropWhile keyChar = x::X := by
    rw [List.dropWhile_append_of_pos hplain]
    simp [hx]
  have hstrip : (x::X).dropWhile isspace = i.op.text ++ (i.afterOp ++ chr '"'::T) := by
    obtain ⟨c,S,hS,-,hc,-⟩ := op_text_head hi.op (i.afterOp ++ chr '"'::T)
    rw [← hX,List.append_assoc,List.dropWhile_append_of_pos hi.afterKey,hS]
    simp [hc]
  have hquote : (i.afterOp ++ chr '"'::T).dropWhile isspace = chr '"'::T := by
    have hspace : isspace (chr '"') = false := by decide
    rw [List.dropWhile_append_of_pos hi.afterOp]
    simp [hspace]
  have hne : i.op.text ++ (i.afterOp ++ chr '"'::T) ≠ [] := by simp
  have hoper : ruleGetoper (i.op.text ++ (i.afterOp ++ chr '"'::T)) = some (i.op,i.op.text.length) := by
    rw [hT]
    exact ruleGetoper_text hi.op ht T'
  rw [hX]
  simp only [ruleGetkey,htake,hdrop,hstrip,if_neg hne,hoper,List.drop_left,hquote]
  rfl

end Getkey

section Accepts

variable {i : Item}

theorem Clause.print_eq (hi : Clause i) : i.print =
    i.key ++ (i.afterKey ++ i.op.text ++ (i.afterOp ++ chr '"'::(escape i.value ++ [chr '"']))) := by
  simp [Item.print,hi.before_nil]

theorem ruleGetkey_open (hi : i.Readable) {T : CString} (hT : (ruleValue false T).2 = []) :
    ∃ e, ruleGetkey (i.key ++ (i.afterKey ++ i.op.text ++ (i.afterOp ++ chr '"'::T))) = .error e := by
  by_cases hplain : ∀ c ∈ i.key, keyChar c = true
  · rw [ruleGetkey_value hi hplain,hT]
    exact ⟨.quotexp,if_pos (by decide)⟩
  · exact ⟨_,ruleGetkey_special hi hplain _⟩

theorem not_comma_space {s : CString} (hs : ∀ c ∈ s, isspace c = true) : chr ',' ∉ s := fun h =>
  absurd (hs _ h) (by decide)

theorem ruleGetkey_cut (hi : Clause i) {pre post : CString} (h : i.print = pre ++ chr ','::post) :
    ∃ e, ruleGetkey pre = .error e := by
  rw [hi.print_eq] at h
  rcases split_append h.symm with ⟨a,ha⟩ | ⟨pre₁,rfl,h₁⟩
  · refine ruleGetkey_no_eq fun hmem => ?_
    exact (hi.key (chr '=') (by simp [ha,hmem])).2.2 rfl
  · have hsep : chr ',' ∉ i.afterKey ++ i.op.text ++ i.afterOp ++ [chr '"'] := by
      have hop : chr ',' ∉ i.op.text := by cases i.op <;> decide
      have hquote : chr ',' ≠ chr '"' := by decide
      simp [not_comma_space hi.afterKey,not_comma_space hi.afterOp,hop,hquote]
    have hsplit : i.afterKey ++ i.op.text ++ (i.afterOp ++ chr '"'::(escape i.value ++ [chr '"'])) =
        i.afterKey ++ i.op.text ++ i.afterOp ++ [chr '"'] ++ (escape i.value ++ [chr '"']) := by simp
    rw [hsplit] at h₁
    rcases split_append h₁.symm with ⟨a,ha⟩ | ⟨pre₂,rfl,h₂⟩
    · exact absurd (ha ▸ List.mem_append_right _ List.mem_cons_self) hsep
    · rcases split_append h₂.symm with ⟨a,ha⟩ | ⟨pre₃,rfl,h₃⟩
      · obtain ⟨v',v'',-,rfl⟩ := escape_comma ha
        have hvalue := ruleValue_escape v' [] fun _ => by decide
        rw [List.append_nil] at hvalue
        have hpre : i.key ++ (i.afterKey ++ i.op.text ++ i.afterOp ++ [chr '"'] ++ escape v') =
            i.key ++ (i.afterKey ++ i.op.text ++ (i.afterOp ++ chr '"'::escape v')) := by simp
        rw [hpre]
        exact ruleGetkey_open hi.toReadable (congrArg Prod.snd hvalue)
      · have hmem : chr ',' ∈ [chr '"'] := by simp [h₃]
        exact absurd hmem (by decide)

theorem ruleGetkey_print (hi : Clause i) (hplain : ∀ c ∈ i.key, keyChar c = true)
    (hlast : i.value.getLast? ≠ some (chr '\\')) : ruleGetkey i.print = .ok (i.key,i.op,i.value) := by
  have hvalue := ruleValue_escape i.value [chr '"'] fun h => absurd h hlast
  have hend : ruleValue false [chr '"'] = ([],[chr '"']) := rfl
  rw [hend,List.append_nil] at hvalue
  rw [hi.print_eq,ruleGetkey_value hi.toReadable hplain,hvalue]
  rfl

theorem ruleGetkey_backslash (hi : Clause i) (hlast : i.value.getLast? = some (chr '\\')) :
    ∃ e, ruleGetkey i.print = .error e := by
  obtain ⟨v,hv⟩ : ∃ v, i.value = v ++ [chr '\\'] := List.getLast?_eq_some_iff.mp hlast
  have hesc : escape i.value ++ [chr '"'] = escape (v ++ [chr '"']) ++ [] := by
    have hone : chr '\\' ≠ chr '"' := by decide
    simp [escape,hv,hone]
  have hvalue := ruleValue_escape (v ++ [chr '"']) [] fun _ => by decide
  rw [← hesc] at hvalue
  rw [hi.print_eq]
  exact ruleGetkey_open hi.toReadable (congrArg Prod.snd hvalue)

theorem accepts_iff (hi : Clause i) : Accepts i ↔ i.value.getLast? ≠ some (chr '\\') ∧ ¬Cut i.print ∧
    (∀ c ∈ i.key, keyChar c = true) ∧ InTables i.key i.op := by
  have hcutFrom : CutFrom false i.print ↔ Cut i.print := by simp [CutFrom,Cut]
  have herror : ∀ {clause : CString}, (∃ e, ruleGetkey clause = .error e) → ¬0 < check clause :=
    fun ⟨e,he⟩ => check_error he
  unfold Accepts ruleGetclause clauseLine
  by_cases hcut : Cut i.print
  · obtain ⟨pre,post,hprint,hpre⟩ : ∃ pre post, i.print = pre ++ chr ','::post ∧
        (getclause false (i.print ++ [chr '\n'])).1 = pre := getclause_cut [] hi.line (hcutFrom.mpr hcut)
    rw [hpre]
    exact iff_of_false (herror (ruleGetkey_cut hi hprint)) fun h => h.2.1 hcut
  · rw [getclause_whole [] hi.line fun h => hcut (hcutFrom.mp h)]
    by_cases hlast : i.value.getLast? = some (chr '\\')
    · exact iff_of_false (herror (ruleGetkey_backslash hi hlast)) fun h => h.1 hlast
    by_cases hplain : ∀ c ∈ i.key, keyChar c = true
    · rw [check_ok (ruleGetkey_print hi hplain hlast)]
      exact ⟨fun h => ⟨hlast,hcut,hplain,h⟩,fun h => h.2.2.2⟩
    · refine iff_of_false (herror ⟨.oper,?_⟩) fun h => hplain h.2.2.1
      rw [hi.print_eq]
      exact ruleGetkey_special hi.toReadable hplain _

end Accepts

section Takes

variable {o : Options} {place : CString} {i : Item}

theorem addPairs_singleton {p : KeyPair} : addPairs o {} [p] ≠ none ↔ addKey o p ≠ none := by
  cases h : addKey o p with
  | none => simp [addPairs,addPair,h]
  | some e =>
    have hfew := takenFew_addKey o p e h
    have hroom : ¬(e.checked = true ∧ (RuleTmp.apply {} e).token.length ≥ maxTk) := by
      rintro ⟨hchecked,hlen⟩
      rw [RuleTmp.apply,List.nil_append,(hfew.checked hchecked).1] at hlen
      exact absurd hlen (by decide)
    simp [addPairs,addPair,h,hroom]

theorem takes_iff (hi : Clause i) : Takes o place (clauseLine i) ↔
    i.value.getLast? ≠ some (chr '\\') ∧ ¬Refused (pairOf i) ∧ ¬Ignored (pairOf i) := by
  have hend : nextPair [chr '\n'] = none := rfl
  by_cases hlast : i.value.getLast? = some (chr '\\')
  · refine iff_of_false ?_ fun h => h.1 hlast
    rintro ⟨hwhole,-⟩
    have hget := getKey_open i hi.toReadable hlast [] [chr '\n'] (by decide)
    have hnext : nextPair (clauseLine i) = none := by
      rw [List.nil_append,List.length_nil] at hget
      rw [nextPair,clauseLine,hget,Option.map_none]
    obtain ⟨c,k,hck⟩ := List.exists_cons_of_ne_nil hi.key_ne
    have hspace := (hi.key c (by simp [hck])).2.1
    have hblank : isblank c = false := by
      rw [Bool.eq_false_iff]
      intro hblank
      rcases Bool.or_eq_true_iff.mp hblank with h | h
      · rw [eq_of_beq h] at hspace
        exact absurd hspace (by decide)
      · rw [eq_of_beq h] at hspace
        exact absurd hspace (by decide)
    have hrest : lineRest (clauseLine i) = clauseLine i := by
      unfold lineRest
      cases (clauseLine i).length with
      | zero => rfl
      | succ n => simp [restAfter,hnext]
    have hstart : clauseLine i = c::(clauseLine i).tail := by simp [clauseLine,hi.print_eq,hck]
    have hdrop : (clauseLine i).dropWhile isblank = clauseLine i := by
      rw [hstart]
      exact List.dropWhile_cons_of_neg (by simp [hblank])
    rw [Whole,hrest,hdrop,hstart] at hwhole
    rw [show c = chr '\n' from hwhole] at hspace
    exact absurd hspace (by decide)
  · obtain ⟨hpairs,hrest⟩ : linePairs ([i].flatMap Item.print ++ [chr '\n']) = [i].map pairOf ∧
        lineRest ([i].flatMap Item.print ++ [chr '\n']) = [chr '\n'] :=
      linePairs_items (by simp [hi.toReadable,hlast]) hend
    have hline : clauseLine i = [i].flatMap Item.print ++ [chr '\n'] := by simp [clauseLine]
    have hwhole : Whole (clauseLine i) := by
      rw [Whole,hline,hrest]
      decide
    rw [Takes,and_iff_right hwhole,and_iff_right hlast,hline,addRule,hpairs,List.map_singleton]
    have hignored : (ignored place (pairOf i)).isSome ↔ Ignored (pairOf i) := ignored_isSome_iff
    rw [Ne,Option.map_eq_none_iff,← Ne,addPairs_singleton,Ne,addKey_eq_none_iff,← hignored]
    simp

end Takes

/-- A key as it stands in the tables of the checker. -/
def Tabled (key : CString) : Prop :=
  key ∈ noArgsKeys ++ noArgsMatchKeys ∨
    ∃ a, getKeyAttribute key = some a ∧ a ≠ [] ∧ keyName key ∈ argsKeys ++ argsMatchKeys

/-- A key that is in the tables of the checker, or is the start of one that is, and that the daemon
does not take. -/
inductive Overlooked (p : KeyPair) : Prop
  | name (h : p.key = str "NAME") (hop : p.op.isMatch = false) (hvalue : p.value = str "%k")
  | short (h : keyName p.key ∉ argsKeys ++ argsMatchKeys)
      (hshort : (∃ n ∈ argsKeys, keyName p.key <+: n) ∨ p.op.isMatch ∧ ∃ n ∈ argsMatchKeys, keyName p.key <+: n)
      (hattr : ∃ a, getKeyAttribute p.key = some a ∧ a ≠ [])
  | blacklist (h : keyName p.key = str "ENV") (hop : p.op.isMatch = false)
      (hattr : ∃ a, getKeyAttribute p.key = some a ∧ a ∈ envBlacklist)
  | importType (h : keyName p.key = str "IMPORT")
      (hattr : ∃ a, getKeyAttribute p.key = some a ∧ a ≠ [] ∧
        a ∉ [str "program",str "builtin",str "file",str "db",str "cmdline",str "parent"])
  | runType (h : keyName p.key = str "RUN")
      (hattr : ∃ a, getKeyAttribute p.key = some a ∧ a ≠ [] ∧ a ∉ [str "program",str "builtin"])
  | command (h : keyName p.key = str "IMPORT" ∨ keyName p.key = str "RUN")
      (hattr : getKeyAttribute p.key = some (str "builtin")) (hcmd : BuiltinCmd.lookup p.value = .max)

section Keys

variable {key value : CString} {op : Op}

theorem key_eq {a : CString} (h : getKeyAttribute key = some a) : ∃ r, key = keyName key ++ chr '{'::r := by
  obtain ⟨p,hp,-⟩ := Option.bind_eq_some_iff.mp h
  obtain ⟨hkey,r,rfl⟩ := strchr_eq_some hp
  exact ⟨r,hkey⟩

theorem getKeyAttribute_free (h : key ∈ freeKeys) : getKeyAttribute key = none := by
  simp only [freeKeys,List.mem_cons,List.not_mem_nil,or_false] at h
  rcases h with rfl | rfl | rfl | rfl | rfl | rfl | rfl | rfl | rfl | rfl | rfl <;> rfl

theorem getKeyAttribute_compared (h : key ∈ comparedKeys) : getKeyAttribute key = none := by
  simp only [comparedKeys,List.mem_cons,List.not_mem_nil,or_false] at h
  rcases h with rfl | rfl | rfl | rfl | rfl | rfl | rfl | rfl | rfl | rfl <;> rfl

set_option maxRecDepth 2000 in
theorem mem_noArgsMatchKeys : ∀ key ∈ noArgsMatchKeys, key ∈ comparedKeys ∨ key = str "TEST" := by decide

set_option maxRecDepth 2000 in
theorem mem_noArgsKeys : ∀ key ∈ noArgsKeys, key ∈ freeKeys ∨ key = str "NAME" ∨ key = str "RUN" := by decide

theorem keyName_mem {a n : CString} (hknown : Known key) (hattr : getKeyAttribute key = some a)
    (hn : n ∈ argsKeys ++ argsMatchKeys) (hpre : keyName key <+: n) : keyName key ∈ argsKeys ++ argsMatchKeys := by
  have hstart : ∀ n₀ ∈ startKeys, ∀ n ∈ argsKeys ++ argsMatchKeys, n₀ <+: n → n₀ = n := by decide
  rcases hknown with h | h | ⟨n₀,hn₀,r,rfl⟩ | ⟨n₀,hn₀,r,rfl⟩
  · rw [getKeyAttribute_compared h] at hattr
    cases hattr
  · rw [getKeyAttribute_free h] at hattr
    cases hattr
  · simp only [attrKeys,List.mem_cons,List.not_mem_nil,or_false] at hn₀
    rcases hn₀ with rfl | rfl | rfl | rfl <;> simp [keyName,str,chr,argsKeys,argsMatchKeys]
  · have hbrace : ∀ n₀ ∈ startKeys, chr '{' ∉ n₀ := by decide
    have hname : keyName (n₀ ++ r) = n₀ ++ keyName r :=
      List.takeWhile_append_of_pos fun c hc => by
        simp only [decide_eq_true_eq]
        rintro rfl
        exact hbrace n₀ hn₀ hc
    have heq := hstart n₀ hn₀ n hn ((hname ▸ List.prefix_append n₀ (keyName r)).trans hpre)
    have hlen := hpre.length_le
    have hfull : keyName (n₀ ++ r) = n := by
      refine hpre.eq_of_length_le ?_
      rw [hname,List.length_append,heq]
      omega
    rw [hfull]
    exact hn

/-- Of the keys that the daemon takes the checker knows those that stand in its tables as they are. -/
theorem inTables_iff_tabled (h : ¬Refused ⟨key,op,value⟩) : InTables key op ↔ Tabled key := by
  have hknown : Known key := by
    by_contra hnot
    exact h (.unknown hnot)
  have hmatch : key ∈ comparedKeys ∨ str "ATTRS\x7b" <+: key ∨ str "TEST" <+: key → op.isMatch = true := by
    intro hkey
    rw [← Bool.not_eq_false]
    exact fun hop => h (.operator hop hkey)
  unfold InTables Tabled
  rw [← or_assoc]
  refine or_congr ?_ (exists_congr fun a => and_congr_right fun hattr => and_congr_right fun _ => ?_)
  · rw [List.mem_append]
    refine or_congr_right ⟨And.left,fun hkey => ⟨hkey,?_⟩⟩
    rcases mem_noArgsMatchKeys _ hkey with hkey | rfl
    · exact hmatch (Or.inl hkey)
    · exact hmatch (Or.inr (Or.inr List.prefix_rfl))
  · constructor
    · rintro (⟨n,hn,hpre⟩ | ⟨-,n,hn,hpre⟩)
      · exact keyName_mem hknown hattr (List.mem_append_left _ hn) hpre
      · exact keyName_mem hknown hattr (List.mem_append_right _ hn) hpre
    · intro hname
      rcases List.mem_append.mp hname with hname | hname
      · exact Or.inl ⟨_,hname,List.prefix_rfl⟩
      · refine Or.inr ⟨hmatch (Or.inr ?_),_,hname,List.prefix_rfl⟩
        obtain ⟨r,hkey⟩ := key_eq hattr
        simp only [argsMatchKeys,List.mem_cons,List.not_mem_nil,or_false] at hname
        rcases hname with hname | hname
        · rw [hkey,hname]
          exact Or.inl ⟨r,rfl⟩
        · rw [hkey,hname]
          exact Or.inr ⟨chr '{'::r,rfl⟩

theorem free_taken (o : Options) (place : CString) (h : key ∈ freeKeys) :
    addKey o ⟨key,op,value⟩ ≠ none ∧ ignored place ⟨key,op,value⟩ = none := by
  refine ⟨addKey_freeKeys h,?_⟩
  simp only [freeKeys,List.mem_cons,List.not_mem_nil,or_false] at h
  rcases h with rfl | rfl | rfl | rfl | rfl | rfl | rfl | rfl | rfl | rfl | rfl <;> rfl

theorem compared_taken (o : Options) (place : CString) (h : key ∈ comparedKeys) (hop : op.isMatch = true) :
    addKey o ⟨key,op,value⟩ ≠ none ∧ ignored place ⟨key,op,value⟩ = none := by
  refine ⟨fun hnone => ?_,?_⟩
  · rw [(addKey_comparedKeys h).mp hnone] at hop
    cases hop
  · simp only [comparedKeys,List.mem_cons,List.not_mem_nil,or_false] at h
    rcases h with rfl | rfl | rfl | rfl | rfl | rfl | rfl | rfl | rfl | rfl <;> rfl

theorem overlooked_full {n r a : CString} (o : Options) (place : CString) (hn : n ∈ argsKeys ++ argsMatchKeys)
    (hop : n ∈ argsMatchKeys → op.isMatch = true) (hattr : getKeyAttribute (n ++ chr '{'::r) = some a) (hne : a ≠ [])
    (h : addKey o ⟨n ++ chr '{'::r,op,value⟩ = none ∨ (ignored place ⟨n ++ chr '{'::r,op,value⟩).isSome = true) :
    Overlooked ⟨n ++ chr '{'::r,op,value⟩ := by
  have hsome : getKeyAttribute (n ++ chr '{'::r) ≠ none := fun hnone => by
    rw [hattr] at hnone
    cases hnone
  have hplain : (ignored place ⟨n ++ chr '{'::r,op,value⟩) = none → addKey o ⟨n ++ chr '{'::r,op,value⟩ = none := by
    intro hnone
    rw [hnone] at h
    exact h.resolve_right Bool.false_ne_true
  simp only [argsKeys,argsMatchKeys,List.cons_append,List.nil_append,List.mem_cons,List.not_mem_nil,or_false] at hn
  rcases hn with rfl | rfl | rfl | rfl | rfl | rfl | rfl
  · exact absurd (addKey_attr.mp (hplain rfl)) hsome
  · rcases addKey_env.mp (hplain rfl) with hnone | ⟨hset,b,hb,hattr'⟩
    · exact absurd hnone hsome
    · exact .blacklist rfl hset ⟨b,hattr',hb⟩
  · rcases ignored_import.mp (h.resolve_left addKey_import) with htype | ⟨hcmd,hlookup⟩
    · exact .importType rfl ⟨a,hattr,hne,fun ha => htype a ha hattr⟩
    · exact .command (Or.inl rfl) hcmd hlookup
  · rcases ignored_run.mp (h.resolve_left addKey_run) with ⟨b,hb,htype⟩ | ⟨hcmd,hlookup⟩
    · obtain rfl := Option.some.inj (hattr.symm.trans hb)
      exact .runType rfl ⟨a,hattr,hne,htype⟩
    · exact .command (Or.inr rfl) hcmd hlookup
  · exact absurd (addKey_seclabel.mp (hplain rfl)) hsome
  · rcases addKey_attrs.mp (hplain rfl) with hnone | hset
    · exact absurd hnone hsome
    · rw [hop (by decide)] at hset
      cases hset
  · rw [addKey_test.mp (hplain rfl)] at hop
    exact absurd (hop (by decide)) Bool.false_ne_true

theorem overlooked_of_inTables (o : Options) (place : CString) (hvalue : value ≠ [])
    (h : addKey o ⟨key,op,value⟩ = none ∨ (ignored place ⟨key,op,value⟩).isSome = true) :
    InTables key op → Overlooked ⟨key,op,value⟩ := by
  have hnot : ¬(addKey o ⟨key,op,value⟩ ≠ none ∧ ignored place ⟨key,op,value⟩ = none) := by
    rintro ⟨hadd,hign⟩
    rcases h with h | h
    · exact hadd h
    · rw [hign] at h
      cases h
  rintro (hkey | ⟨hkey,hop⟩ | ⟨a,hattr,hne,hname⟩)
  · rcases mem_noArgsKeys key hkey with hkey | rfl | rfl
    · exact absurd (free_taken o place hkey) hnot
    · obtain ⟨hop,hv⟩ := ignored_name.mp (h.resolve_left addKey_name)
      exact .name rfl hop (hv.resolve_right hvalue)
    · rcases ignored_run.mp (h.resolve_left addKey_run) with ⟨a,ha,-⟩ | ⟨ha,-⟩ <;> cases ha
  · rcases mem_noArgsMatchKeys key hkey with hkey | rfl
    · exact absurd (compared_taken o place hkey hop) hnot
    · refine absurd ⟨fun hnone => ?_,rfl⟩ hnot
      rw [addKey_test.mp hnone] at hop
      cases hop
  · by_cases hfull : keyName key ∈ argsKeys ++ argsMatchKeys
    · obtain ⟨r,hkey⟩ := key_eq hattr
      have hmatch : ∀ n ∈ argsMatchKeys, keyName key = n → op.isMatch = true := by
        have hdiff : ∀ n ∈ argsMatchKeys, ∀ n' ∈ argsKeys, ¬n <+: n' := by decide
        rintro n hn rfl
        rcases hname with ⟨n',hn',hpre⟩ | ⟨hop,-⟩
        · exact absurd hpre (hdiff _ hn n' hn')
        · exact hop
      have heq : key = keyName key ++ chr '{'::r := hkey
      generalize keyName key = n at heq hfull hmatch
      subst heq
      exact overlooked_full o place hfull (fun hn => hmatch n hn rfl) hattr hne h
    · exact .short hfull hname ⟨a,hattr,hne⟩

theorem inTables_of_overlooked (hover : Overlooked ⟨key,op,value⟩) : InTables key op := by
  have hself : ∀ n ∈ argsKeys, keyName key = n → ∀ a, getKeyAttribute key = some a → a ≠ [] → InTables key op := by
    rintro n hn rfl a hattr hne
    exact Or.inr (Or.inr ⟨a,hattr,hne,Or.inl ⟨_,hn,List.prefix_rfl⟩⟩)
  have hbl : ∀ a ∈ envBlacklist, a ≠ [] := by decide
  cases hover with
  | name hkey hop hv =>
    exact Or.inl (by rw [show key = str "NAME" from hkey]; decide)
  | short hfull hshort hattr =>
    obtain ⟨a,hattr,hne⟩ := hattr
    exact Or.inr (Or.inr ⟨a,hattr,hne,hshort⟩)
  | blacklist hname hop hattr =>
    obtain ⟨a,hattr,ha⟩ := hattr
    exact hself _ (by decide) hname a hattr (hbl a ha)
  | importType hname hattr =>
    obtain ⟨a,hattr,hne,-⟩ := hattr
    exact hself _ (by decide) hname a hattr hne
  | runType hname hattr =>
    obtain ⟨a,hattr,hne,-⟩ := hattr
    exact hself _ (by decide) hname a hattr hne
  | command hname hattr hcmd =>
    rcases hname with hname | hname
    · exact hself _ (by decide) hname _ hattr (by decide)
    · exact hself _ (by decide) hname _ hattr (by decide)

theorem inTables_iff_overlooked (o : Options) (place : CString) (hvalue : value ≠ [])
    (h : addKey o ⟨key,op,value⟩ = none ∨ (ignored place ⟨key,op,value⟩).isSome = true) :
    InTables key op ↔ Overlooked ⟨key,op,value⟩ :=
  ⟨overlooked_of_inTables o place hvalue h,inTables_of_overlooked⟩

end Keys

/-- The checker sees the clause as a whole and its key up to the operator. -/
def Seen (i : Item) : Prop := ¬Cut i.print ∧ ∀ c ∈ i.key, c ≠ chr '+' ∧ c ≠ chr '!' ∧ c ≠ chr ':'

theorem keyChar_iff {i : Item} (hi : i.Readable) :
    (∀ c ∈ i.key, keyChar c = true) ↔ ∀ c ∈ i.key, c ≠ chr '+' ∧ c ≠ chr '!' ∧ c ≠ chr ':' := by
  refine forall_congr' fun c => forall_congr' fun hc => ?_
  obtain ⟨-,hspace,heq⟩ := hi.key c hc
  simp [keyChar,hspace,heq,and_assoc]

/-- The two programs agree about a clause that neither of them can read, about one that the daemon
takes if the checker sees it whole and its key stands in a table, and about one that the daemon does
not take unless the checker overlooks why. -/
theorem check_agrees_iff (o : Options) (place : CString) {i : Item} (hi : Clause i) :
    (Accepts i ↔ Takes o place (clauseLine i)) ↔
      i.value.getLast? = some (chr '\\') ∨
      ¬(Refused (pairOf i) ∨ Ignored (pairOf i)) ∧ Seen i ∧ Tabled i.key ∨
      (Refused (pairOf i) ∨ Ignored (pairOf i)) ∧ ¬(Seen i ∧ Overlooked (pairOf i)) := by
  rw [accepts_iff hi,takes_iff hi,keyChar_iff hi.toReadable,← not_or]
  by_cases hlast : i.value.getLast? = some (chr '\\')
  · simp [hlast]
  by_cases hnot : Refused (pairOf i) ∨ Ignored (pairOf i)
  · have hlog : addKey o (pairOf i) = none ∨ (ignored place (pairOf i)).isSome = true :=
      hnot.imp addKey_eq_none_iff.mpr ignored_isSome_iff.mpr
    have htable := inTables_iff_overlooked o place hi.value_ne hlog
    have hseen : ¬Cut i.print ∧ (∀ c ∈ i.key, c ≠ chr '+' ∧ c ≠ chr '!' ∧ c ≠ chr ':') ∧ InTables i.key i.op ↔
        Seen i ∧ Overlooked (pairOf i) := by
      rw [htable,Seen,and_assoc]
      rfl
    simp [hlast,hnot,hseen]
  · have htable := inTables_iff_tabled (not_or.mp hnot).1
    have hseen : ¬Cut i.print ∧ (∀ c ∈ i.key, c ≠ chr '+' ∧ c ≠ chr '!' ∧ c ≠ chr ':') ∧ InTables i.key i.op ↔
        Seen i ∧ Tabled i.key := by
      rw [htable,Seen,and_assoc]
    simp [hlast,hnot,hseen]

/-- `AT{size}=="1"`. -/
def shortKey : Item := { key := str "AT\x7bsize\x7d", op := .opMatch, value := str "1" }

set_option maxRecDepth 4000 in
theorem shortKey_clause : Clause shortKey where
  before := by decide
  key_ne := by decide
  key_head := by decide
  key := by decide
  key_last := by decide
  afterKey := by decide
  op := by decide
  afterOp := by decide
  value := by decide
  before_nil := rfl
  value_ne := by decide
  line := by decide

set_option maxRecDepth 4000 in
theorem check_accepts_short_key :
    ¬∀ (o : Options) (place : CString) (i : Item), Clause i → (Accepts i ↔ Takes o place (clauseLine i)) := by
  intro hall
  have haccepts : 0 < check (ruleGetclause (clauseLine shortKey)).1 := by decide
  have htakes := (hall { accounts := noAccounts } [] shortKey shortKey_clause).mp haccepts
  have hnone : addRule { accounts := noAccounts } (clauseLine shortKey) = none := by decide
  exact htakes.2.1 hnone

theorem check_agrees_short_key :
    (Accepts shortKey ↔ Takes { accounts := noAccounts } [] (clauseLine shortKey)) ↔
      shortKey.value.getLast? = some (chr '\\') ∨
      ¬(Refused (pairOf shortKey) ∨ Ignored (pairOf shortKey)) ∧ Seen shortKey ∧ Tabled shortKey.key ∨
      (Refused (pairOf shortKey) ∨ Ignored (pairOf shortKey)) ∧ ¬(Seen shortKey ∧ Overlooked (pairOf shortKey)) :=
  check_agrees_iff _ _ shortKey_clause

end CheckRule
end Udev
