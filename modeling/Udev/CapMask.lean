import Udev.Memory
import Udev.Text

/-! The capability masks of input devices: a text of hexadecimal words, the most significant first, is
taken apart from its end into an array of `n` numbers. The indices that are touched are recorded. -/
namespace Udev
namespace CapMask

open CString Text

/-- The array, and the indices that were read or written. -/
structure Mask where
  words : ℕ → ℕ
  touched : List ℕ := []

def Mask.store (m : Mask) (i val : ℕ) : Mask where
  words := Function.update m.words i val
  touched := m.touched ++ [i]

def strrchr : CString → UInt8 → Option ℕ
  | [], _ => none
  | b::s, c => (strrchr s c).elim (if b = c then some 0 else none) fun i => some (i+1)

/-- `strtoul(word, NULL, 16)` -/
def wordValue (word : CString) : ℕ := (strtoulLiteral 16 word).1

/-- `if (i < bitmask_size/sizeof(unsigned long)) bitmask[i] = val;` -/
def storeWord (n i : ℕ) (word : CString) (m : Mask) : Mask := if i < n then m.store i (wordValue word) else m

/-- The loop that cuts off the last word, and the word that is left; `none` when it has not come to its end. -/
def fillLoop (n : ℕ) : ℕ → CString → ℕ → Mask → Option Mask
  | 0, _, _, _ => none
  | k+1, text, i, m =>
    match strrchr text (chr ' ') with
    | some p => fillLoop n k (text.take p) (i+1) (storeWord n i (text.drop (p+1)) m)
    | none => some (storeWord n i text m)

/-- `while (bitmask[val-1] == 0 && val > 0) --val;` with the indices that it reads: the test looks at the word
before it looks at `val`, which is an `unsigned long`. -/
def skipZeros (words : ℕ → ℕ) : ℕ → ℕ × List ℕ
  | 0 => (0,[2^64-1])
  | val+1 => if words val = 0 then ((skipZeros words val).1,val::(skipZeros words val).2) else (val+1,[val])

def testMask (n : ℕ) (m : Mask) : Mask :=
  let r := skipZeros m.words n
  { m with touched := m.touched ++ r.2 ++ List.range r.1 }

/-- The text of the attribute in a buffer of 4096 bytes. -/
def attrText (attr : Option CString) : CString := (attr.getD (str "(null)")).take 4095

/-- `get_cap_mask` for an array of `n` words that holds anything. -/
def getCapMask (n : ℕ) (attr : Option CString) (test : Bool) (junk : ℕ → ℕ) : Option Mask :=
  let text := attrText attr
  let m : Mask := { words := fun j => if j < n then 0 else junk j, touched := List.range n }
  (fillLoop n (text.length+1) text 0 m).map fun m => if test then testMask n m else m

/-- `"%lx"` -/
def printHex (v : ℕ) : CString := (Nat.toDigits 16 v).map chr

/-- The text of a bitmap, given from its least significant word on: zero words at the begin are left out. -/
def kernelText (bitmap : List ℕ) : CString :=
  let words := bitmap.reverse.dropWhile (· = 0)
  if words = [] then str "0" else [chr ' '].intercalate (words.map printHex)

example : (getCapMask 3 (some (str "1 0 fe")) true fun _ => 7).map (fun m => (List.range 4).map m.words) =
    some [0xfe,0,1,7] := by decide +kernel

section Words

variable {s t : CString} {c : UInt8} {ws : List CString} {w : CString}

theorem strrchr_none (h : c ∉ s) : strrchr s c = none := by
  induction s with
  | nil => rfl
  | cons b s ih =>
    rw [List.mem_cons,not_or] at h
    rw [strrchr,ih h.2,Option.elim_none,if_neg (Ne.symm h.1)]

theorem strrchr_append (s : CString) (h : c ∉ t) : strrchr (s ++ c::t) c = some s.length := by
  induction s with
  | nil =>
    rw [List.nil_append,strrchr,strrchr_none h,Option.elim_none,if_pos rfl]
    rfl
  | cons b s ih => rw [List.cons_append,strrchr,ih,Option.elim_some,List.length_cons]

theorem intercalate_concat (hws : ws ≠ []) (w : CString) :
    [c].intercalate (ws ++ [w]) = [c].intercalate ws ++ c::w := by
  induction ws with
  | nil => exact absurd rfl hws
  | cons v ws ih =>
    cases ws with
    | nil => simp
    | cons u ws =>
      have := ih (List.cons_ne_nil u ws)
      rw [List.cons_append,List.cons_append,List.intercalate_cons_cons,← List.cons_append,this,List.intercalate_cons_cons]
      simp

theorem intercalate_length (hws : ws ≠ []) : ws.length ≤ ([c].intercalate ws).length+1 := by
  induction ws with
  | nil => exact absurd rfl hws
  | cons v ws ih =>
    cases ws with
    | nil => exact Nat.succ_le_succ (Nat.zero_le _)
    | cons u ws =>
      have := ih (List.cons_ne_nil u ws)
      rw [List.intercalate_cons_cons]
      simp only [List.length_append,List.length_cons,List.length_nil] at this ⊢
      omega

theorem not_mem_splitOn (s : CString) (c : UInt8) : ∀ w ∈ s.splitOn c, c ∉ w := by
  suffices ∃ ws : List CString, ws ≠ [] ∧ (∀ w ∈ ws, c ∉ w) ∧ s = [c].intercalate ws by
    obtain ⟨ws,hws,hmem,rfl⟩ := this
    rw [List.splitOn_intercalate c hmem hws]
    exact hmem
  induction s with
  | nil => exact ⟨[[]],List.cons_ne_nil _ _,by simp,by simp⟩
  | cons b s ih =>
    obtain ⟨ws,hws,hmem,rfl⟩ := ih
    obtain ⟨w,ws,rfl⟩ := List.exists_cons_of_ne_nil hws
    rw [List.forall_mem_cons] at hmem
    by_cases hb : b = c
    · subst hb
      refine ⟨[]::w::ws,List.cons_ne_nil _ _,?_,by rw [List.intercalate_cons_cons]; rfl⟩
      rw [List.forall_mem_cons,List.forall_mem_cons]
      exact ⟨List.not_mem_nil,hmem⟩
    · refine ⟨(b::w)::ws,List.cons_ne_nil _ _,?_,?_⟩
      · rw [List.forall_mem_cons]
        exact ⟨fun h => (List.mem_cons.mp h).elim (fun h => hb h.symm) hmem.1,hmem.2⟩
      · cases ws with
        | nil => simp
        | cons v ws => rw [List.intercalate_cons_cons,List.intercalate_cons_cons]; rfl

end Words

section Fill

variable {n i k : ℕ} {m : Mask} {ws : List CString} {w : CString}

theorem storeWord_words (n i : ℕ) (w : CString) (m : Mask) (j : ℕ) :
    (storeWord n i w m).words j = if j = i ∧ i < n then wordValue w else m.words j := by
  rw [storeWord]
  by_cases hi : i < n
  · rw [if_pos hi,Mask.store]
    by_cases hj : j = i
    · rw [if_pos ⟨hj,hi⟩,hj]
      exact Function.update_self ..
    · rw [if_neg fun h => hj h.1]
      exact Function.update_of_ne hj ..
  · rw [if_neg hi,if_neg fun h => hi h.2]

theorem storeWord_first (n i j : ℕ) (w : CString) (l : List ℕ) (m : Mask) :
    (if i+1 ≤ j ∧ j < n then l[j-(i+1)]?.getD ((storeWord n i w m).words j) else (storeWord n i w m).words j) =
      if i ≤ j ∧ j < n then (wordValue w::l)[j-i]?.getD (m.words j) else m.words j := by
  rw [storeWord_words]
  rcases Nat.lt_trichotomy j i with hj | rfl | hj
  · rw [if_neg (by omega),if_neg (by omega),if_neg (by omega)]
  · rw [if_neg (by omega)]
    by_cases hn : j < n
    · rw [if_pos ⟨rfl,hn⟩,if_pos ⟨le_rfl,hn⟩,Nat.sub_self]
      rfl
    · rw [if_neg (by omega),if_neg (by omega)]
  · have hone : j-i = j-(i+1)+1 := by omega
    rw [if_neg (by omega : ¬(j = i ∧ i < n)),hone,List.getElem?_cons_succ]
    by_cases hn : j < n
    · rw [if_pos ⟨hj,hn⟩,if_pos ⟨hj.le,hn⟩]
    · rw [if_neg (by omega),if_neg (by omega)]

theorem storeWord_touched (n i : ℕ) (w : CString) (m : Mask) {j : ℕ} (hj : j ∈ (storeWord n i w m).touched) :
    j ∈ m.touched ∨ j < n := by
  rw [storeWord] at hj
  by_cases hi : i < n
  · rw [if_pos hi] at hj
    rcases List.mem_append.mp hj with hj | hj
    · exact Or.inl hj
    · exact Or.inr (List.mem_singleton.mp hj ▸ hi)
  · rw [if_neg hi] at hj
    exact Or.inl hj

/-- The words go into the array from the last one on, as far as it has room. -/
theorem fillLoop_join (hws : ws ≠ []) (hmem : ∀ w ∈ ws, chr ' ' ∉ w) (hk : ws.length ≤ k) :
    ∃ m', fillLoop n k ([chr ' '].intercalate ws) i m = some m' ∧
      (∀ j, m'.words j = if i ≤ j ∧ j < n then (ws.reverse.map wordValue)[j-i]?.getD (m.words j) else m.words j) ∧
      ∀ j ∈ m'.touched, j ∈ m.touched ∨ j < n := by
  induction ws using List.reverseRecOn generalizing k i m with
  | nil => exact absurd rfl hws
  | append_singleton ws w ih =>
    obtain ⟨k,rfl⟩ := Nat.exists_eq_succ_of_ne_zero (by simp at hk; omega : k ≠ 0)
    have hw : chr ' ' ∉ w := hmem w (by simp)
    have hrev : (ws ++ [w]).reverse.map wordValue = wordValue w::ws.reverse.map wordValue := by simp
    rw [hrev]
    by_cases hempty : ws = []
    · subst hempty
      refine ⟨storeWord n i w m,?_,fun j => ?_,fun j => storeWord_touched n i w m⟩
      · rw [List.nil_append,List.intercalate_singleton,fillLoop,strrchr_none hw]
      · exact (ite_self _).symm.trans (storeWord_first n i j w [] m)
    · obtain ⟨m',hrun,hwords,htouched⟩ := ih (k := k) (i := i+1) (m := storeWord n i w m) hempty
        (fun v hv => hmem v (List.mem_append_left _ hv)) (by simp at hk; omega)
      refine ⟨m',?_,fun j => ?_,fun j hj => ?_⟩
      · rw [intercalate_concat hempty,fillLoop,strrchr_append _ hw]
        dsimp only
        rw [List.take_left,← List.drop_drop,List.drop_left]
        exact hrun
      · rw [hwords,storeWord_first]
      · rcases htouched j hj with hj | hj
        · exact storeWord_touched n i w m hj
        · exact Or.inr hj

theorem skipZeros_le (words : ℕ → ℕ) (v : ℕ) : (skipZeros words v).1 ≤ v := by
  induction v with
  | zero => exact le_rfl
  | succ v ih =>
    rw [skipZeros]
    split_ifs
    · exact ih.trans (Nat.le_succ v)
    · exact le_rfl

/-- The pass over the zeros stops in the array if and only if a word is not zero. -/
theorem skipZeros_inside (words : ℕ → ℕ) {v : ℕ} (hv : v ≤ n) (hn : n < 2^64) :
    (∀ j ∈ (skipZeros words v).2, j < n) ↔ ∃ j < v, words j ≠ 0 := by
  induction v with
  | zero =>
    rw [skipZeros,List.forall_mem_singleton]
    exact iff_of_false (by omega) nofun
  | succ v ih =>
    rw [skipZeros]
    by_cases hzero : words v = 0
    · rw [if_pos hzero,List.forall_mem_cons,and_iff_right (Nat.lt_of_succ_le hv),ih (Nat.le_of_succ_le hv)]
      refine ⟨fun ⟨j,hj,hne⟩ => ⟨j,hj.trans (Nat.lt_succ_self v),hne⟩,fun ⟨j,hj,hne⟩ => ⟨j,?_,hne⟩⟩
      rcases Nat.lt_succ_iff_lt_or_eq.mp hj with hj | rfl
      · exact hj
      · exact absurd hzero hne
    · rw [if_neg hzero,List.forall_mem_singleton]
      exact iff_of_true (Nat.lt_of_succ_le hv) ⟨v,Nat.lt_succ_self v,hzero⟩

end Fill

section Kernel

theorem scanDigits_printHex (v : ℕ) (t : CString) : scanDigits 16 0 (printHex v ++ t) = scanDigits 16 v t := by
  have hdigit : ∀ d < 16, digitValue (chr (Nat.digitChar d)) = d := by decide
  induction v using Nat.strong_induction_on generalizing t with
  | _ v ih =>
    have hstep : ∀ d < 16, ∀ acc, scanDigits 16 acc ([chr (Nat.digitChar d)] ++ t) = scanDigits 16 (acc*16+d) t := by
      intro d hd acc
      rw [List.singleton_append,scanDigits,hdigit d hd,if_pos hd]
    by_cases hv : v < 16
    · rw [printHex,Nat.toDigits_of_lt_base hv,List.map_singleton,hstep v hv,Nat.zero_mul,Nat.zero_add]
    · have hdiv := ih (v/16) (by omega) ([chr (Nat.digitChar (v%16))] ++ t)
      rw [hstep (v%16) (Nat.mod_lt _ (by decide)),Nat.div_add_mod'] at hdiv
      rw [printHex,Nat.toDigits_of_base_le (by decide) (Nat.le_of_not_lt hv),List.map_append,List.append_assoc]
      exact hdiv

theorem printHex_digits (v : ℕ) : printHex v ≠ [] ∧ ∀ c ∈ printHex v, ∃ d < 16, c = chr (Nat.digitChar d) := by
  induction v using Nat.strong_induction_on with
  | _ v ih =>
    by_cases hv : v < 16
    · rw [printHex,Nat.toDigits_of_lt_base hv,List.map_singleton]
      exact ⟨List.cons_ne_nil _ _,fun c hc => ⟨v,hv,List.mem_singleton.mp hc⟩⟩
    · rw [printHex,Nat.toDigits_of_base_le (by decide) (Nat.le_of_not_lt hv),List.map_append]
      refine ⟨List.append_ne_nil_of_right_ne_nil _ (List.cons_ne_nil _ _),fun c hc => ?_⟩
      rcases List.mem_append.mp hc with hc | hc
      · exact (ih (v/16) (by omega)).2 c hc
      · exact ⟨v%16,Nat.mod_lt _ (by decide),List.mem_singleton.mp hc⟩

/-- A byte of a printed word is no blank, no sign and no letter of the prefix. -/
theorem printHex_byte {v : ℕ} {c : UInt8} (hc : c ∈ printHex v) :
    isspace c = false ∧ c ≠ chr '-' ∧ c ≠ chr '+' ∧ c ≠ chr 'x' ∧ c ≠ chr 'X' ∧ c ≠ chr ' ' := by
  have hall : ∀ d < 16, isspace (chr (Nat.digitChar d)) = false ∧ chr (Nat.digitChar d) ≠ chr '-' ∧
      chr (Nat.digitChar d) ≠ chr '+' ∧ chr (Nat.digitChar d) ≠ chr 'x' ∧ chr (Nat.digitChar d) ≠ chr 'X' ∧
      chr (Nat.digitChar d) ≠ chr ' ' := by decide
  obtain ⟨d,hd,rfl⟩ := (printHex_digits v).2 c hc
  exact hall d hd

theorem wordValue_printHex {v : ℕ} (hv : v < 2^64) : wordValue (printHex v) = v := by
  have hscan : scanDigits 16 0 (printHex v) = (v,[]) := by
    have := scanDigits_printHex v []
    rwa [List.append_nil] at this
  obtain ⟨c,cs,hcs⟩ := List.exists_cons_of_ne_nil (printHex_digits v).1
  have hhead := printHex_byte (show c ∈ printHex v by rw [hcs]; exact List.mem_cons_self)
  have hsecond : charAt (c::cs) 1 ≠ chr 'x' ∧ charAt (c::cs) 1 ≠ chr 'X' := by
    cases cs with
    | nil => exact (by decide : (0 : UInt8) ≠ chr 'x' ∧ (0 : UInt8) ≠ chr 'X')
    | cons d cs =>
      have := printHex_byte (show d ∈ printHex v by rw [hcs]; simp)
      exact ⟨this.2.2.2.1,this.2.2.2.2.1⟩
  rw [hcs] at hscan ⊢
  have hspace : (c::cs).dropWhile isspace = c::cs := List.dropWhile_cons_of_neg (by rw [hhead.1]; exact Bool.false_ne_true)
  have hfirst : charAt (c::cs) 0 = c := rfl
  have hsign : ¬(c = chr '-' ∨ c = chr '+') := not_or.mpr ⟨hhead.2.1,hhead.2.2.1⟩
  have hhex : ¬(charAt (c::cs) 1 = chr 'x' ∨ charAt (c::cs) 1 = chr 'X') := not_or.mpr hsecond
  have hlen : ¬([] : CString).length = (c::cs).length := by simp
  have hsize : ¬v ≥ 2^64 := Nat.not_le.mpr hv
  simp only [wordValue,strtoulLiteral,hspace,hfirst,if_neg hsign,hhex,false_and,and_false,or_false,if_true,if_false,hscan,
    if_neg hlen,if_neg hsize,if_neg hhead.2.1]

theorem dropZeros_getD (bitmap : List ℕ) (j : ℕ) :
    (bitmap.reverse.dropWhile (· = 0)).reverse.getD j 0 = bitmap.getD j 0 := by
  induction bitmap using List.reverseRecOn with
  | nil => rfl
  | append_singleton bitmap v ih =>
    rw [List.reverse_append,List.reverse_singleton,List.singleton_append]
    by_cases hv : v = 0
    · subst hv
      rw [List.dropWhile_cons_of_pos (by simp),ih]
      rcases Nat.lt_trichotomy j bitmap.length with hj | rfl | hj
      · rw [List.getD_append _ _ _ _ hj]
      · rw [List.getD_append_right _ _ _ _ le_rfl,Nat.sub_self,List.getD_eq_default _ _ le_rfl]
        rfl
      · rw [List.getD_append_right _ _ _ _ hj.le,List.getD_eq_default _ _ hj.le,List.getD_eq_default]
        rw [List.length_singleton]
        omega
    · rw [List.dropWhile_cons_of_neg (by simpa using hv),List.reverse_cons,List.reverse_reverse]

end Kernel

/-- The text of a bitmap gives its words back, and zeros for those that were left out. -/
theorem kernelText_words {bitmap : List ℕ} (hb : ∀ v ∈ bitmap, v < 2^64) (j : ℕ) :
    (((kernelText bitmap).splitOn (chr ' ')).reverse.map wordValue).getD j 0 = bitmap.getD j 0 := by
  rw [← dropZeros_getD bitmap j,kernelText]
  have hsub : ∀ v ∈ bitmap.reverse.dropWhile (· = 0), v < 2^64 := fun v hv =>
    hb v (List.mem_reverse.mp ((List.dropWhile_sublist _).subset hv))
  by_cases hwords : bitmap.reverse.dropWhile (· = 0) = []
  · have hzero : ((str "0").splitOn (chr ' ')).reverse.map wordValue = [0] := by decide +kernel
    rw [if_pos hwords,hwords,hzero]
    cases j with
    | zero => rfl
    | succ j => rfl
  · have hmem : ∀ w ∈ (bitmap.reverse.dropWhile (· = 0)).map printHex, chr ' ' ∉ w := by
      intro w hw hspace
      obtain ⟨v,-,rfl⟩ := List.mem_map.mp hw
      exact (printHex_byte hspace).2.2.2.2.2 rfl
    have hback : ((bitmap.reverse.dropWhile (· = 0)).map printHex).reverse.map wordValue =
        (bitmap.reverse.dropWhile (· = 0)).reverse := by
      rw [← List.map_reverse,List.map_map]
      refine (List.map_congr_left fun v hv => ?_).trans (List.map_id _)
      exact wordValue_printHex (hsub v (List.mem_reverse.mp hv))
    rw [if_neg hwords,List.splitOn_intercalate _ hmem (by simpa using hwords),hback]

theorem getCapMask_words (n : ℕ) (attr : Option CString) (test : Bool) (junk : ℕ → ℕ) :
    ∃ m, fillLoop n ((attrText attr).length+1) (attrText attr) 0
        { words := fun j => if j < n then 0 else junk j, touched := List.range n } = some m ∧
      getCapMask n attr test junk = some (if test then testMask n m else m) ∧
      (∀ j < n, m.words j = (((attrText attr).splitOn (chr ' ')).reverse.map wordValue).getD j 0) ∧
      ∀ j ∈ m.touched, j < n := by
  have hws : (attrText attr).splitOn (chr ' ') ≠ [] := List.splitOn_ne_nil _ _
  have hjoin : [chr ' '].intercalate ((attrText attr).splitOn (chr ' ')) = attrText attr := List.intercalate_splitOn (chr ' ')
  have hlen : ((attrText attr).splitOn (chr ' ')).length ≤ (attrText attr).length+1 := by
    have := intercalate_length (c := chr ' ') hws
    rwa [hjoin] at this
  obtain ⟨m,hrun,hwords,htouched⟩ := fillLoop_join (n := n) (i := 0)
    (m := { words := fun j => if j < n then 0 else junk j, touched := List.range n }) hws (not_mem_splitOn _ _) hlen
  rw [hjoin] at hrun
  refine ⟨m,hrun,?_,fun j hj => ?_,fun j hj => ?_⟩
  · rw [getCapMask,hrun,Option.map_some]
  · have hzero : (if j < n then 0 else junk j) = 0 := if_pos hj
    rw [hwords,if_pos ⟨Nat.zero_le j,hj⟩,Nat.sub_zero,List.getD_eq_getElem?_getD]
    dsimp only
    rw [hzero]
  · exact (htouched j hj).elim List.mem_range.mp id

theorem exists_value {α : Type*} (f : α → ℕ) (l : List α) (n : ℕ) :
    (∃ j < n, (l.map f).getD j 0 ≠ 0) ↔ ∃ w ∈ l.take n, f w ≠ 0 := by
  constructor
  · rintro ⟨j,hj,hne⟩
    have hlen : j < l.length := by
      by_contra hge
      exact hne (List.getD_eq_default _ _ (by rw [List.length_map]; exact Nat.le_of_not_lt hge))
    rw [List.getD_eq_getElem _ _ (by rwa [List.length_map]),List.getElem_map] at hne
    exact ⟨l[j],List.mem_take_iff_getElem.mpr ⟨j,by omega,rfl⟩,hne⟩
  · rintro ⟨w,hw,hne⟩
    obtain ⟨j,hj,rfl⟩ := List.mem_take_iff_getElem.mp hw
    have hlen : j < l.length := by omega
    refine ⟨j,by omega,?_⟩
    rwa [List.getD_eq_getElem _ _ (by rwa [List.length_map]),List.getElem_map]

/-- The array holds the bitmap that the kernel wrote, and only its `n` words are touched if and only if the pass over
the zeros of the test mode, where there is one, comes to a word that is not zero. -/
theorem get_cap_mask_fills (n : ℕ) (hn : 8*n < 2^64) (attr : Option CString) (test : Bool) (junk : ℕ → ℕ) :
    ∃ m, getCapMask n attr test junk = some m ∧
      ((∀ j ∈ m.touched, j < n) ↔
        test = false ∨ ∃ w ∈ ((attrText attr).splitOn (chr ' ')).reverse.take n, wordValue w ≠ 0) ∧
      ∀ bitmap : List ℕ, bitmap.length ≤ n → (∀ v ∈ bitmap, v < 2^64) → attr = some (kernelText bitmap) →
        (kernelText bitmap).length < 4096 → ∀ j < n, m.words j = bitmap.getD j 0 := by
  obtain ⟨m,-,hmask,hwords,htouched⟩ := getCapMask_words n attr test junk
  refine ⟨_,hmask,?_,fun bitmap _ hb hattr hlen j hj => ?_⟩
  · cases test with
    | false => exact iff_of_true htouched (Or.inl rfl)
    | true =>
      rw [← exists_value wordValue,or_iff_right Bool.true_eq_false.mp]
      have hvalues : (∃ j < n, m.words j ≠ 0) ↔
          ∃ j < n, (((attrText attr).splitOn (chr ' ')).reverse.map wordValue).getD j 0 ≠ 0 :=
        exists_congr fun j => and_congr_right fun hj => by rw [hwords j hj]
      rw [← hvalues,← skipZeros_inside m.words le_rfl (by omega : n < 2^64),if_pos rfl,testMask]
      dsimp only
      have hrange : ∀ j ∈ List.range (skipZeros m.words n).1, j < n := fun j hj =>
        (List.mem_range.mp hj).trans_le (skipZeros_le m.words n)
      rw [List.forall_mem_append,List.forall_mem_append,and_iff_right htouched,and_iff_left hrange]
  · have htext : attrText attr = kernelText bitmap := by
      rw [attrText,hattr,Option.getD_some]
      exact List.take_of_length_le (by omega)
    have hword : m.words j = bitmap.getD j 0 := by rw [hwords j hj,htext,kernelText_words hb]
    cases test with
    | false => exact hword
    | true => exact hword

theorem get_cap_mask_fills_two :
    ∃ m, getCapMask 2 (some (kernelText [0xfe,1])) true (fun _ => 7) = some m ∧
      ((∀ j ∈ m.touched, j < 2) ↔ true = false ∨
        ∃ w ∈ ((attrText (some (kernelText [0xfe,1]))).splitOn (chr ' ')).reverse.take 2, wordValue w ≠ 0) ∧
      ∀ bitmap : List ℕ, bitmap.length ≤ 2 → (∀ v ∈ bitmap, v < 2^64) → some (kernelText [0xfe,1]) = some (kernelText bitmap) →
        (kernelText bitmap).length < 4096 → ∀ j < 2, m.words j = bitmap.getD j 0 :=
  get_cap_mask_fills 2 (by decide) _ true fun _ => 7

/-- The empty bitmap in test mode: the word before the array is read. -/
theorem get_cap_mask_empty : ¬∀ (n : ℕ) (attr : Option CString) (test : Bool) (junk : ℕ → ℕ), 8*n < 2^64 →
    ∃ m, getCapMask n attr test junk = some m ∧ ∀ j ∈ m.touched, j < n := by
  intro h
  obtain ⟨m,hmask,hall⟩ := h 1 (some (kernelText [])) true (fun _ => 0) (by decide)
  have htouched : (getCapMask 1 (some (kernelText [])) true fun _ => 0).map (·.touched) = some [0,0,0,2^64-1] := by decide +kernel
  rw [hmask] at htouched
  have hlist : m.touched = [0,0,0,2^64-1] := Option.some.inj htouched
  exact absurd (hall (2^64-1) (by rw [hlist]; simp)) (by decide)

end CapMask
end Udev
