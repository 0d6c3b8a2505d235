import Mathlib.Algebra.Ring.Nat
import Udev.Collect

/-! What `checkout` reads back from a checkpoint file: each pass finds the words up to the first
one that does not fit into the two halves of the buffer, and a restart keeps them. -/
namespace Udev
namespace Collect

open Words

/-- Bytes without the terminator and the delimiters of words. -/
def Plain (s : CString) : Prop := ∀ c ∈ s, c ≠ 0 ∧ c ∉ accept

instance (s : CString) : Decidable (Plain s) := inferInstanceAs (Decidable (∀ c ∈ s, c ≠ 0 ∧ c ∉ accept))

def old (ws : List CString) : List Mate := (ws.filter (· ≠ [])).map (⟨·,.stateOld⟩)

@[simp] theorem old_append (ws ws' : List CString) : old (ws ++ ws') = old ws ++ old ws' := by simp [old]

@[simp] theorem old_nil : old [] = [] := rfl

theorem old_words {ws : List CString} (h : ∀ w ∈ ws, w ≠ []) : old ws = ws.map (⟨·,.stateOld⟩) := by
  rw [old,List.filter_eq_self.mpr fun w hw => by simpa using h w hw]

theorem old_replicate_nil (n : ℕ) : old (List.replicate n []) = [] := by simp [old]

theorem blank_mem : chr ' ' ∈ accept := by decide

theorem charAt_drop (buf : CString) (ptr : ℕ) : CString.charAt buf ptr = (buf.drop ptr).head?.getD 0 := by
  rw [CString.charAt,List.getD_eq_getElem?_getD,List.head?_drop]

section Pass

variable {buf t rest : CString} {ptr len : ℕ}

theorem takeWhile_plain (h : Plain t) (hrest : rest.head?.all (· == 0)) : (t ++ rest).takeWhile (· ≠ 0) = t := by
  induction t with
  | nil => cases rest <;> simp_all
  | cons c t ih =>
    have hc := (h c List.mem_cons_self).1
    rw [List.cons_append,List.takeWhile_cons_of_pos (by simpa using hc),ih fun d hd => h d (List.mem_cons_of_mem _ hd)]

theorem findIdx_plain (h : Plain t) : t.findIdx? (accept.contains ·) = none := by
  rw [List.findIdx?_eq_none_iff]
  intro c hc
  simpa using (h c hc).2

theorem strpbrk_plain (hbuf : buf.drop ptr = t) (ht : Plain t) : strpbrk buf ptr = none := by
  have htake := @takeWhile_plain t [] ht rfl
  rw [List.append_nil] at htake
  rw [strpbrk,hbuf,htake,findIdx_plain ht,Option.map_none]

theorem strpbrk_blank (hbuf : buf.drop ptr = t ++ chr ' '::rest) (ht : Plain t) :
    strpbrk buf ptr = some (ptr+t.length) := by
  have htake : (t ++ chr ' '::rest).takeWhile (· ≠ 0) = t ++ chr ' '::rest.takeWhile (· ≠ 0) := by
    rw [List.takeWhile_append_of_pos fun c hc => by simpa using (ht c hc).1]
    rfl
  rw [strpbrk,hbuf,htake,List.findIdx?_append,findIdx_plain ht,List.findIdx?_cons]
  simp [blank_mem]

theorem drop_terminated (hbuf : buf.drop ptr = t ++ chr ' '::rest) :
    (buf.set (ptr+t.length) 0).drop ptr = t ++ 0::rest := by
  rw [List.drop_set,if_neg (by omega),hbuf,Nat.add_sub_cancel_left,List.set_append_right _ _ (Nat.le_refl _),
    Nat.sub_self]
  rfl

theorem parseWords_word (hbuf : buf.drop ptr = t ++ chr ' '::rest) (ht : Plain t) (word : Option ℕ)
    (bunch : List Mate) :
    ∃ word', parseWords len buf ptr word bunch =
      parseWords len (buf.set (ptr+t.length) 0) (ptr+t.length+1) word' (bunch ++ old [t]) := by
  have hchar : CString.charAt buf ptr ≠ 0 := by
    rw [charAt_drop,hbuf]
    cases t with
    | nil => exact (by decide : chr ' ' ≠ 0)
    | cons c t => exact (ht c List.mem_cons_self).1
  have hname : ((buf.set (ptr+t.length) 0).drop ptr).takeWhile (· ≠ 0) = t := by
    rw [drop_terminated hbuf]
    exact takeWhile_plain ht rfl
  rw [parseWords,if_neg hchar]
  split
  · next hnone => simp [strpbrk_blank hbuf ht] at hnone
  · next q hq =>
    obtain rfl := Option.some.inj ((strpbrk_blank hbuf ht).symm.trans hq)
    simp only [hname]
    by_cases hnil : t.length = 0
    · rw [if_pos hnil,List.eq_nil_of_length_eq_zero hnil]
      exact ⟨some ptr,by simp [old]⟩
    · rw [if_neg hnil]
      have hold : old [t] = [⟨t,.stateOld⟩] := by simp [old,List.ne_nil_of_length_pos (Nat.pos_of_ne_zero hnil)]
      exact ⟨none,by rw [hold]⟩

theorem parseWords_text {pieces : List CString} (hbuf : buf.drop ptr = text (chr ' ') pieces ++ t)
    (hpieces : ∀ w ∈ pieces, Plain w) (word : Option ℕ) (bunch : List Mate) :
    ∃ buf' word', parseWords len buf ptr word bunch =
        parseWords len buf' (ptr+(text (chr ' ') pieces).length) word' (bunch ++ old pieces) ∧
      buf'.length = buf.length ∧ buf'.drop (ptr+(text (chr ' ') pieces).length) = t := by
  induction pieces generalizing buf ptr word bunch with
  | nil => exact ⟨buf,word,by simp,rfl,by simpa using hbuf⟩
  | cons w pieces ih =>
    have hword : buf.drop ptr = w ++ chr ' '::(text (chr ' ') pieces ++ t) := by simpa using hbuf
    obtain ⟨word',heq⟩ := @parseWords_word buf w _ ptr len hword (hpieces w List.mem_cons_self) word bunch
    have hdrop : (buf.set (ptr+w.length) 0).drop (ptr+w.length+1) = text (chr ' ') pieces ++ t := by
      rw [Nat.add_assoc,← List.drop_drop,drop_terminated hword,← List.drop_drop,List.drop_left]
      rfl
    obtain ⟨buf',word'',heq',hlen,hdrop'⟩ :=
      ih hdrop (fun v hv => hpieces v (List.mem_cons_of_mem _ hv)) word' (bunch ++ old [w])
    have hptr : ptr+w.length+1+(text (chr ' ') pieces).length = ptr+(text (chr ' ') (w::pieces)).length := by
      rw [length_text_cons]
      omega
    rw [hptr] at heq' hdrop'
    refine ⟨buf',word'',?_,hlen.trans List.length_set,hdrop'⟩
    rw [heq,heq',List.append_assoc,← old_append]
    rfl

end Pass

section Blocks

variable {t : CString} {ptr len : ℕ}

/-- Bytes without delimiter at the begin of a text are of its first word. -/
theorem length_le_of_plain {ws : List CString} {r w : CString} (ht : Plain t)
    (heq : t ++ r = text (chr ' ') (w::ws)) : t.length ≤ w.length := by
  by_contra hlt
  have hget : t[w.length]? = some (chr ' ') := by
    have := congrArg (·[w.length]?) heq
    simpa [List.getElem?_append_left (Nat.lt_of_not_le hlt)] using this
  exact (ht _ (List.mem_of_getElem? hget)).2 blank_mem

theorem eq_nil_of_plain {ws : List CString} (ht : Plain t) (heq : t = text (chr ' ') ws) : ws = [] := by
  cases ws with
  | nil => rfl
  | cons w ws =>
    have hmem : chr ' ' ∈ t := by simp [heq]
    exact absurd blank_mem (ht _ hmem).2

theorem parseWords_end {buf : CString} (hptr : ptr+t.length = buf.length) (hbuf : buf.drop ptr = t) (ht : Plain t)
    (hlen : t = [] ∨ len ≤ ptr) (word : Option ℕ) (bunch : List Mate) :
    ∃ ptr' word', parseWords len buf ptr word bunch = .parsed buf ptr' word' bunch ∧
      (ptr' <|> word') = some ptr := by
  rw [parseWords]
  cases t with
  | nil =>
    have hchar : CString.charAt buf ptr = 0 :=
      List.getD_eq_default _ _ (by simpa using Nat.le_of_eq hptr.symm)
    exact ⟨some ptr,word,by rw [if_pos hchar],rfl⟩
  | cons c t =>
    have hge : ¬ptr < len := Nat.not_lt_of_le (hlen.resolve_left (List.cons_ne_nil c t))
    have hchar : CString.charAt buf ptr ≠ 0 := by
      rw [charAt_drop,hbuf]
      exact (ht c List.mem_cons_self).1
    rw [if_neg hchar]
    split
    · exact ⟨none,some ptr,by rw [if_neg hge],rfl⟩
    · next q hq => simp [strpbrk_plain hbuf ht] at hq

theorem parseWords_overflow {buf : CString} (hbuf : buf.drop ptr = t) (ht : Plain t) (hne : t ≠ [])
    (hlt : ptr < len) (word : Option ℕ) (bunch : List Mate) :
    parseWords len buf ptr word bunch = .overflow bunch := by
  have hchar : CString.charAt buf ptr ≠ 0 := by
    rw [charAt_drop,hbuf]
    cases t with
    | nil => exact absurd rfl hne
    | cons c t => exact (ht c List.mem_cons_self).1
  rw [parseWords,if_neg hchar]
  split
  · exact if_pos hlt
  · next q hq => simp [strpbrk_plain hbuf ht] at hq

/-- The state in which a block is read: the begin of a word is left in the lower half, and the
upper half is blank. -/
structure AtBlock (len : ℕ) (buf : CString) (ptr : ℕ) (t : CString) : Prop where
  length : buf.length = 2*len
  pending : ptr+t.length = len
  lower : (buf.take len).drop ptr = t
  upper : buf.drop len = List.replicate len (chr ' ')

theorem AtBlock.read {buf : CString} (h : AtBlock len buf ptr t) (file : CString) :
    (buf.take len ++ file.take len ++ buf.drop (len+(file.take len).length)).length = 2*len ∧
    (buf.take len ++ file.take len ++ buf.drop (len+(file.take len).length)).drop ptr =
      t ++ file.take len ++ List.replicate (len-(file.take len).length) (chr ' ') := by
  have hlower : (buf.take len).length = len := by
    rw [List.length_take,h.length]
    omega
  have hblock : (file.take len).length ≤ len := List.length_take_le _ _
  have hupper : buf.drop (len+(file.take len).length) =
      List.replicate (len-(file.take len).length) (chr ' ') := by
    rw [← List.drop_drop,h.upper,List.drop_replicate]
  have hptr : ptr ≤ (buf.take len).length := by
    have := h.pending
    omega
  refine ⟨?_,?_⟩
  · rw [List.length_append,List.length_append,hupper,List.length_replicate,hlower]
    omega
  · rw [hupper,List.append_assoc,List.drop_append_of_le_length hptr,h.lower,List.append_assoc]

/-- A word that begins in the lower half and does not end in the buffer is the first one, and does not fit. -/
theorem overflow_word {found left : List CString} {t' block rest : CString} (hpending : ptr+t.length = len) (ht : Plain t)
    (ht' : Plain t') (htake : t ++ block = text (chr ' ') found ++ t') (hleft : t' ++ rest = text (chr ' ') left)
    (hne : t' ≠ []) (hend : ptr+(text (chr ' ') found).length+t'.length = 2*len)
    (hlt : ptr+(text (chr ' ') found).length < len) : found = [] ∧ left ≠ [] ∧ fitting len ptr left = [] := by
  have hfound : found = [] := by
    have hprefix : text (chr ' ') found <+: t :=
      List.prefix_of_prefix_length_le ⟨t',htake.symm⟩ (List.prefix_append t block) (by omega)
    cases found with
    | nil => rfl
    | cons w found =>
      have hmem : chr ' ' ∈ t := hprefix.subset (by simp)
      exact absurd blank_mem (ht _ hmem).2
  subst hfound
  cases left with
  | nil => exact absurd (List.append_eq_nil_iff.mp hleft).1 hne
  | cons w left =>
    have hle := length_le_of_plain ht' hleft
    have hmod : ptr%len = ptr := Nat.mod_eq_of_lt (by simpa using hlt)
    have hfits : ¬Fits len ptr w := by
      rw [Fits,hmod]
      simp at hend
      omega
    exact ⟨rfl,List.cons_ne_nil _ _,by rw [fitting,if_neg hfits]⟩

theorem AtBlock.next {buf : CString} (hlength : buf.length = 2*len) (hend : ptr+t.length = 2*len) (hge : len ≤ ptr)
    (hdrop : buf.drop ptr = t) : AtBlock len (buf.drop len ++ List.replicate len (chr ' ')) (ptr-len) t := by
  have hupper : (buf.drop len).length = len := by
    rw [List.length_drop,hlength]
    omega
  refine ⟨?_,?_,?_,?_⟩
  · rw [List.length_append,hupper,List.length_replicate]
    omega
  · omega
  · rw [List.take_left' hupper,List.drop_drop,Nat.add_sub_cancel' hge,hdrop]
  · rw [List.drop_left' hupper]

/-- A block that is not full is the last one, and no word is left after it. -/
theorem last_block {left : List CString} {file : CString} (ht : Plain t) (hleft : t ++ file.drop len = text (chr ' ') left)
    (hpos : 0 < len-(file.take len).length) : t = [] ∧ left = [] := by
  have hnil : file.drop len = [] := by
    rw [List.length_take] at hpos
    exact List.drop_eq_nil_of_le (by omega)
  rw [hnil,List.append_nil] at hleft
  have hleft' := eq_nil_of_plain ht hleft
  exact ⟨by rw [hleft,hleft',text_nil],hleft'⟩

/-- Which words fit after a block that ends in the upper half, with `k` blanks behind its words if it is the last. -/
theorem fitting_block {found left : List CString} {k : ℕ} (hlast : 0 < k → left = [])
    (hge : len ≤ ptr+((text (chr ' ') found).length+k)) (hend : ptr+(text (chr ' ') found).length ≤ 2*len) :
    fitting len ptr (found ++ left) = found ++ fitting len (ptr+((text (chr ' ') found).length+k)-len) left := by
  rw [fitting_append (d := chr ' ') hend]
  rcases Nat.eq_zero_or_pos k with rfl | hpos
  · rw [Nat.add_zero] at hge ⊢
    rw [fitting_congr (Nat.mod_eq_sub_mod hge)]
  · rw [hlast hpos]
    rfl

theorem readBlocks_spec {ws : List CString} {buf file : CString} (hlen : 0 < len) (hws : ∀ w ∈ ws, w ≠ [] ∧ Plain w)
    (hat : AtBlock len buf ptr t) (ht : Plain t) (hfile : t ++ file = text (chr ' ') ws) (word : Option ℕ)
    (bunch : List Mate) :
    readBlocks len buf ptr word bunch file =
      (decide (fitting len ptr ws = ws),bunch ++ old (fitting len ptr ws)) := by
  induction hn : file.length using Nat.strong_induction_on generalizing file t ws buf ptr word bunch with
  | _ n ih =>
  rw [readBlocks]
  by_cases hread : (file.take len).length = 0
  · have hempty : file = [] := by
      rw [List.length_take] at hread
      exact List.eq_nil_of_length_eq_zero (by omega)
    rw [hempty,List.append_nil] at hfile
    obtain rfl := eq_nil_of_plain ht hfile
    simp [hread,fitting]
  · obtain ⟨hlength,hdrop⟩ := hat.read file
    obtain ⟨found,t',left,rfl,htake,hleft,ht'⟩ :=
      exists_take_text (d := chr ' ') (fun w hw => (hws w hw).2) (t.length+len)
    rw [← hfile,List.take_length_add_append] at htake
    rw [← hfile,List.drop_length_add_append] at hleft
    have hlast : 0 < len-(file.take len).length → t' = [] ∧ left = [] := last_block ht' hleft
    set k := len-(file.take len).length with hk
    have hbuf : (buf.take len ++ file.take len ++ buf.drop (len+(file.take len).length)).drop ptr =
        text (chr ' ') (found ++ List.replicate k []) ++ t' := by
      rw [hdrop,htake,text_append,text_replicate_nil]
      rcases Nat.eq_zero_or_pos k with hzero | hpos
      · simp [hzero]
      · simp [(hlast hpos).1]
    have hpieces : ∀ w ∈ found ++ List.replicate k [], Plain w := by
      intro w hw
      rcases List.mem_append.mp hw with hw | hw
      · exact (hws w (List.mem_append_left _ hw)).2
      · simp [List.eq_of_mem_replicate hw,Plain]
    obtain ⟨buf',word',heq,hlen',hdrop'⟩ := @parseWords_text _ t' ptr len _ hbuf hpieces word bunch
    have hend : ptr+(text (chr ' ') (found ++ List.replicate k [])).length+t'.length = 2*len := by
      have hpending := hat.pending
      have := congrArg List.length hbuf
      rw [List.length_drop,hlength,List.length_append] at this
      omega
    have htext : (text (chr ' ') (found ++ List.replicate k [])).length = (text (chr ' ') found).length+k := by
      rw [text_append,text_replicate_nil,List.length_append,List.length_replicate]
    have hold : old (found ++ List.replicate k []) = found.map (⟨·,.stateOld⟩) := by
      rw [old_append,old_replicate_nil,List.append_nil,old_words fun w hw => (hws w (List.mem_append_left _ hw)).1]
    simp only [if_neg hread,heq]
    by_cases hover : t' ≠ [] ∧ ptr+(text (chr ' ') (found ++ List.replicate k [])).length < len
    · obtain ⟨hne,hlt⟩ := hover
      have hzero : k = 0 := Nat.eq_zero_of_not_pos fun hpos => hne (hlast hpos).1
      have hnopad : (text (chr ' ') (found ++ List.replicate k [])).length = (text (chr ' ') found).length := by
        rw [htext,hzero,Nat.add_zero]
      obtain ⟨rfl,hleft',hnone⟩ :=
        overflow_word hat.pending ht ht' htake hleft hne (hnopad ▸ hend) (hnopad ▸ hlt)
      rw [parseWords_overflow hdrop' ht' hne hlt]
      simp [hnone,hleft'.symm,hzero]
    · have hge : len ≤ ptr+(text (chr ' ') (found ++ List.replicate k [])).length := by
        by_cases hne : t' = []
        · rw [hne,List.length_nil] at hend
          omega
        · exact Nat.le_of_not_lt fun hlt => hover ⟨hne,hlt⟩
      have hfull : buf'.length = 2*len := hlen'.trans hlength
      obtain ⟨ptr'',word'',hparsed,hptr⟩ :=
        parseWords_end (by rw [hfull,hend]) hdrop' ht' (Or.inr hge) word' (bunch ++ old (found ++ List.replicate k []))
      have hat' := AtBlock.next hfull hend hge hdrop'
      have hfit : fitting len ptr (found ++ left) =
          found ++ fitting len (ptr+(text (chr ' ') (found ++ List.replicate k [])).length-len) left := by
        rw [htext] at hge ⊢
        exact fitting_block (fun hpos => (hlast hpos).2) hge (by omega)
      rw [hparsed]
      simp only [hptr]
      have hless : (file.drop len).length < n := by
        rw [List.length_take] at hread
        rw [List.length_drop]
        omega
      rw [ih _ hless (fun w hw => hws w (List.mem_append_right _ hw)) hat' ht' hleft _ _ rfl,hfit,hold,old_append,
        old_words fun w hw => (hws w (List.mem_append_left _ hw)).1,List.append_assoc]
      simp

end Blocks

section Restart

variable {ws : List CString}

/-- All words fit at some size of the buffer, and none is found at a smaller size. -/
def ReadsBack (ws : List CString) : Prop :=
  ∃ k, (∀ j < k, fitting (BUFSIZE/2*2^j) 0 ws = []) ∧ fitting (BUFSIZE/2*2^k) 0 ws = ws

theorem atBlock_init (len : ℕ) : AtBlock len (List.replicate (2*len) (chr ' ')) len [] where
  length := List.length_replicate
  pending := rfl
  lower := List.drop_eq_nil_of_le (List.length_take_le _ _)
  upper := by
    rw [List.drop_replicate]
    congr 1
    omega

theorem readBlocks_init (hws : ∀ w ∈ ws, w ≠ [] ∧ Plain w) {block : ℕ} (hblock : 0 < block) (bunch : List Mate) :
    readBlocks block (List.replicate (2*block) (chr ' ')) block none bunch (checkpoint ws) =
      (decide (fitting block 0 ws = ws),bunch ++ old (fitting block 0 ws)) := by
  have hnil : Plain [] := by simp [Plain]
  have hfile : [] ++ checkpoint ws = text (chr ' ') ws := rfl
  rw [readBlocks_spec hblock hws (atBlock_init block) hnil hfile,fitting_congr (by simp : block%block = 0%block)]

theorem checkoutFrom_spec (hws : ∀ w ∈ ws, w ≠ [] ∧ Plain w) {n block : ℕ} (hblock : 0 < block)
    (hlen : ∀ w ∈ ws, w.length < block*2^n) (bunch : List Mate) :
    ∃ found : List CString, (∀ w ∈ found, w ≠ []) ∧
      checkoutFrom (n+1) (2*block) bunch (checkpoint ws) = some (bunch ++ old (found ++ ws)) ∧
      (found = [] ↔ ∃ k, (∀ j < k, fitting (block*2^j) 0 ws = []) ∧ fitting (block*2^k) 0 ws = ws) := by
  have hhalf : 2*block/2 = block := Nat.mul_div_cancel_left block Nat.two_pos
  induction n generalizing block bunch with
  | zero =>
    have hfit : fitting block 0 ws = ws := fitting_eq_self (by simpa using hlen) 0
    refine ⟨[],by simp,?_,iff_of_true rfl ⟨0,by simp,by simpa using hfit⟩⟩
    rw [checkoutFrom]
    simp only [hhalf,readBlocks_init hws hblock,hfit]
    simp
  | succ n ih =>
    rw [checkoutFrom]
    simp only [hhalf,readBlocks_init hws hblock]
    by_cases hfit : fitting block 0 ws = ws
    · refine ⟨[],by simp,?_,iff_of_true rfl ⟨0,by simp,by simpa using hfit⟩⟩
      simp [hfit]
    · have hlen' : ∀ w ∈ ws, w.length < 2*block*2^n := by
        intro w hw
        have := hlen w hw
        rw [Nat.pow_succ] at this
        rw [Nat.mul_comm 2 block,Nat.mul_assoc,Nat.mul_comm 2]
        exact this
      obtain ⟨found,hfound,heq,hiff⟩ :=
        ih (by omega) hlen' (bunch ++ old (fitting block 0 ws)) (Nat.mul_div_cancel_left _ Nat.two_pos)
      refine ⟨fitting block 0 ws ++ found,?_,?_,?_⟩
      · intro w hw
        rcases List.mem_append.mp hw with hw | hw
        · exact (hws w ((fitting_initial _ _ _).subset hw)).1
        · exact hfound w hw
      · simp only [hfit,decide_false]
        rw [Nat.mul_comm (2*block) 2,heq,List.append_assoc,← old_append,List.append_assoc]
      · have hshift : ∀ j, 2*block*2^j = block*2^(j+1) := by
          intro j
          rw [Nat.pow_succ,Nat.mul_comm 2 block,Nat.mul_assoc,Nat.mul_comm 2]
        rw [List.append_eq_nil_iff,hiff]
        simp only [hshift]
        constructor
        · rintro ⟨hnone,k,hk,hall⟩
          refine ⟨k+1,?_,hall⟩
          intro j hj
          cases j with
          | zero => simpa using hnone
          | succ j => exact hk j (Nat.lt_of_succ_lt_succ hj)
        · rintro ⟨k,hk,hall⟩
          cases k with
          | zero => exact absurd (by simpa using hall) hfit
          | succ k => exact ⟨by simpa using hk 0 (Nat.zero_lt_succ k),k,fun j hj => hk (j+1) (Nat.succ_lt_succ hj),hall⟩

theorem names_old (hws : ∀ w ∈ ws, w ≠ []) : (old ws).map (·.name) = ws := by
  rw [old_words hws,List.map_map]
  exact List.map_id ws

/-- `checkout` always returns, and reads back the words of the file if and only if the sizes of
the buffer fit them. -/
theorem checkout_spec (hws : ∀ w ∈ ws, w ≠ [] ∧ Plain w) :
    ∃ bunch, checkout (checkpoint ws) = some bunch ∧ (bunch.map (·.name) = ws ↔ ReadsBack ws) ∧
      (ReadsBack ws → bunch = old ws) := by
  have hlen : ∀ w ∈ ws, w.length < BUFSIZE/2*2^(checkpoint ws).length := by
    intro w hw
    have := length_le_text (d := chr ' ') hw
    have hpow : (checkpoint ws).length < 2^(checkpoint ws).length := Nat.lt_two_pow_self
    have hlt : w.length < 2^(checkpoint ws).length := Nat.lt_trans this hpow
    exact Nat.lt_of_lt_of_le hlt (Nat.le_mul_of_pos_left _ (by decide))
  obtain ⟨found,hfound,heq,hiff⟩ := checkoutFrom_spec hws (by decide : 0 < BUFSIZE/2) hlen []
  have hwords : ∀ w ∈ found ++ ws, w ≠ [] := by
    intro w hw
    exact (List.mem_append.mp hw).elim (hfound w) fun hw => (hws w hw).1
  refine ⟨old (found ++ ws),heq,?_,?_⟩
  · rw [names_old hwords,List.append_left_eq_self]
    exact hiff
  · intro hback
    rw [hiff.mpr hback,List.nil_append]

end Restart

end Collect
end Udev
