import Udev.AttrBuffer
import Udev.CommandLine
import Udev.UsbNames

/-! `util_replace_whitespace` on memory, also in place: the string of the words of the input with
an underscore between two of them. The place that is written never overtakes the one that is read. -/
namespace Udev
namespace ReplaceWhitespace

open CString Text Memory Cursor WordTails Rules UsbNames

def stripEnd (m : Memory) (str : ℕ) : ℕ → ℕ
  | 0 => 0
  | len+1 => if isspace (m (str+len)) then stripEnd m str len else len+1

/-- The loop that strips white space at the begin, with what is left of the length. -/
def stripStart (m : Memory) (str : ℕ) : ℕ → ℕ → ℕ
  | i, 0 => i
  | i, left+1 => if isspace (m (str+i)) then stripStart m str (i+1) left else i

def skipSpaces (m : Memory) (str : ℕ) : ℕ → ℕ → Option ℕ
  | 0, _ => none
  | fuel+1, i => if isspace (m (str+i)) then skipSpaces m str fuel (i+1) else some i

def replaceLoop (str len : ℕ) : ℕ → ℕ → Cursor → Option Cursor
  | 0, _, _ => none
  | fuel+1, i, dst =>
    if i < len then
      if isspace (dst.mem (str+i)) then
        (skipSpaces dst.mem str fuel i).bind fun i =>
          let dst := dst.put (chr '_')
          replaceLoop str len fuel (i+1) (dst.put (dst.mem (str+i)))
      else replaceLoop str len fuel (i+1) (dst.put (dst.mem (str+i)))
    else some (dst.put 0)

/-- `util_replace_whitespace` from one place of memory to another. -/
def replaceWhitespaceRun (fuel : ℕ) (m : Memory) (str dst len : ℕ) : Option Cursor :=
  let len := stripEnd m str (m.textFrom str len).length
  replaceLoop str len fuel (stripStart m str 0 len) ⟨m,dst,[]⟩

/-- The words with an underscore between two of them. -/
def joined (s : CString) : CString := [chr '_'].intercalate (wordsOf s)

section Words

theorem endsInSpace_append (t : CString) {u : CString} (hu : u ≠ []) : endsInSpace (t ++ u) = endsInSpace u := by
  obtain ⟨v,c,rfl⟩ := (List.eq_nil_or_concat' u).resolve_left hu
  rw [← List.append_assoc,endsInSpace_concat,endsInSpace_concat]

theorem endsInSpace_tail {c : UInt8} {s : CString} (h : endsInSpace (c::s) = false) : endsInSpace s = false := by
  cases s with
  | nil => rfl
  | cons d s => exact (endsInSpace_append [c] (List.cons_ne_nil d s)).symm.trans h

theorem endsInSpace_dropWhile {s : CString} (h : endsInSpace s = false) : endsInSpace (s.dropWhile isspace) = false := by
  cases hrest : s.dropWhile isspace with
  | nil => rfl
  | cons c r =>
    rw [← List.takeWhile_append_dropWhile (p := isspace) (l := s),hrest,endsInSpace_append _ (List.cons_ne_nil c r)] at h
    exact h

theorem whitespaceLoop_cons {c : UInt8} (hc : isspace c = false) (s : CString) :
    whitespaceLoop (c::s) = c::whitespaceLoop s := by
  rw [whitespaceLoop,if_neg (by simp [hc])]

theorem whitespaceLoop_word {w : CString} (hw : ∀ c ∈ w, isspace c = false) (s : CString) :
    whitespaceLoop (w ++ s) = w ++ whitespaceLoop s := by
  induction w with
  | nil => rfl
  | cons c w ih =>
    rw [List.forall_mem_cons] at hw
    rw [List.cons_append,whitespaceLoop_cons hw.1,ih hw.2]
    rfl

theorem whitespaceLoop_length (s : CString) : (whitespaceLoop s).length ≤ s.length := by
  fun_induction whitespaceLoop s with
  | case1 => exact le_rfl
  | case2 c s hc hrest => exact Nat.succ_le_succ (Nat.zero_le _)
  | case3 c s hc d r hrest ih =>
    have hdrop := List.length_dropWhile_le isspace s
    rw [hrest] at ih hdrop
    simp only [List.length_cons,List.drop_succ_cons,List.drop_zero] at ih hdrop ⊢
    rw [hrest]
    simp only [List.drop_succ_cons,List.drop_zero]
    omega
  | case4 c s hc ih => exact Nat.succ_le_succ ih

theorem words_concat {c : UInt8} (hc : isspace c = true) (s : CString) : wordsOf (s ++ [c]) = wordsOf s := by
  rw [wordsOf,words,List.splitOnP_append_cons s [] hc,List.filter_append,List.splitOnP_nil]
  exact List.append_nil _

theorem words_removeTrailing (s : CString) : wordsOf (removeTrailing isspace s) = wordsOf s := by
  induction s using List.reverseRecOn with
  | nil => rfl
  | append_singleton s c ih =>
    rw [removeTrailing_concat]
    by_cases hc : isspace c = true
    · rw [if_pos hc,ih,words_concat hc]
    · rw [if_neg hc]

theorem words_dropWhile (s : CString) : wordsOf (s.dropWhile isspace) = wordsOf s := by
  rw [wordsOf,← map_wordTails,wordTails_dropWhile,map_wordTails]

theorem endsInSpace_spaces {s : CString} (hs : ∀ c ∈ s, isspace c = true) (hend : endsInSpace s = false) : s = [] := by
  rcases List.eq_nil_or_concat' s with h | ⟨t,c,rfl⟩
  · exact h
  · rw [endsInSpace_concat,hs c (List.mem_append_right _ (List.mem_singleton_self c))] at hend
    cases hend

theorem exists_next {c : UInt8} {s : CString} (hc : isspace c = true) (hend : endsInSpace (c::s) = false) :
    ∃ d r, s.dropWhile isspace = d::r ∧ isspace d = false ∧ endsInSpace (d::r) = false := by
  have hsplit : c::s = (c::s.takeWhile isspace) ++ s.dropWhile isspace := by
    rw [List.cons_append,List.takeWhile_append_dropWhile]
  have hspaces : ∀ x ∈ c::s.takeWhile isspace, isspace x = true :=
    List.forall_mem_cons.mpr ⟨hc,fun x hx => List.mem_takeWhile_imp hx⟩
  have hhead := List.head?_dropWhile_not isspace s
  cases hrest : s.dropWhile isspace with
  | nil =>
    rw [hrest,List.append_nil] at hsplit
    have hnil := endsInSpace_spaces (hsplit ▸ hspaces) hend
    cases hnil
  | cons d r =>
    rw [hrest] at hsplit hhead
    have hd : isspace d = false := by simpa using hhead
    rw [hsplit,endsInSpace_append _ (List.cons_ne_nil d r)] at hend
    exact ⟨d,r,rfl,hd,hend⟩

theorem whitespaceLoop_space {c d : UInt8} {s r : CString} (hc : isspace c = true) (hd : isspace d = false)
    (hs : s.dropWhile isspace = d::r) : whitespaceLoop (c::s) = chr '_'::whitespaceLoop (d::r) := by
  rw [whitespaceLoop,if_pos hc,hs,whitespaceLoop_cons hd]
  rfl

/-- From the begin of a word on, the loop puts an underscore between two words. -/
theorem whitespaceLoop_joined {c : UInt8} (s : CString) (hc : isspace c = false) (hend : endsInSpace (c::s) = false) :
    whitespaceLoop (c::s) = joined (c::s) := by
  induction hn : s.length using Nat.strong_induction_on generalizing c s with
  | _ n ih =>
    obtain ⟨w,r,hsplit,hwords,hword,hbegin,hlen⟩ := exists_word hc s
    rw [joined,hwords,hsplit,whitespaceLoop_word hword]
    cases r with
    | nil => simp [whitespaceLoop,words]
    | cons x r =>
      have hx : isspace x = true := hbegin.resolve_left (List.cons_ne_nil x r)
      rw [hsplit,endsInSpace_append _ (List.cons_ne_nil x r)] at hend
      obtain ⟨d,t,hdrop,hd,hrest⟩ := exists_next hx hend
      have hshort : t.length < n := by
        have hle := List.length_dropWhile_le isspace r
        rw [hdrop] at hle
        simp only [List.length_cons] at hle hlen
        omega
      have hnext : wordsOf (x::r) = wordsOf (d::t) := by rw [words_cons_sep hx,← words_dropWhile,hdrop]
      obtain ⟨v,u,-,hmore,-⟩ := exists_word hd t
      rw [whitespaceLoop_space hx hd hdrop,ih t.length hshort t hd hrest rfl,hnext,joined,
        List.intercalate_cons_of_ne_nil (by rw [hmore]; exact List.cons_ne_nil v _)]
      exact (List.append_assoc w [chr '_'] _).symm

theorem utilReplaceWhitespace_joined (s : CString) (len : ℕ) : utilReplaceWhitespace s len = joined (s.take len) := by
  rw [utilReplaceWhitespace,joined,← words_removeTrailing,← words_dropWhile]
  have hend := removeTrailing_endsInSpace (s.take len)
  have hhead := List.head?_dropWhile_not isspace (removeTrailing isspace (s.take len))
  cases hrest : (removeTrailing isspace (s.take len)).dropWhile isspace with
  | nil =>
    rw [whitespaceLoop]
    rfl
  | cons c r =>
    rw [hrest] at hhead
    have hc : isspace c = false := by simpa using hhead
    exact whitespaceLoop_joined r hc (hrest ▸ endsInSpace_dropWhile hend)

theorem joined_length (s : CString) : (joined s).length ≤ s.length := by
  have hjoined := utilReplaceWhitespace_joined s s.length
  rw [List.take_length] at hjoined
  rw [← hjoined,utilReplaceWhitespace,List.take_length]
  exact (whitespaceLoop_length _).trans ((List.length_dropWhile_le _ _).trans
    (List.rdropWhile_prefix isspace (l := s)).length_le)

theorem mem_joined {s : CString} {c : UInt8} (hc : c ∈ joined s) : isspace c = false ∧ (c = chr '_' ∨ c ∈ s) := by
  have hwords : ∀ w ∈ wordsOf s, c ∈ w → isspace c = false ∧ c ∈ s := by
    intro w hw hmem
    rw [wordsOf,← map_wordTails,List.mem_map] at hw
    obtain ⟨u,hu,rfl⟩ := hw
    have hspace : (!isspace c) = true := List.mem_takeWhile_imp (p := (!isspace ·)) hmem
    exact ⟨by simpa using hspace,(mem_tailsFrom hu).1.subset ((List.takeWhile_prefix _).subset hmem)⟩
  revert hc
  rw [joined]
  generalize wordsOf s = ws at hwords
  induction ws with
  | nil => exact fun h => absurd h List.not_mem_nil
  | cons w ws ih =>
    rw [List.forall_mem_cons] at hwords
    intro hc
    cases ws with
    | nil =>
      rw [List.intercalate_singleton] at hc
      exact ⟨(hwords.1 hc).1,Or.inr (hwords.1 hc).2⟩
    | cons v ws =>
      rw [List.intercalate_cons_cons,List.append_assoc,List.mem_append,List.mem_append,List.mem_singleton] at hc
      rcases hc with hc | rfl | hc
      · exact ⟨(hwords.1 hc).1,Or.inr (hwords.1 hc).2⟩
      · exact ⟨rfl,Or.inl rfl⟩
      · exact ih hwords.2 hc

theorem joined_of_no_space {s : CString} (hs : ∀ c ∈ s, isspace c = false) : joined s = s := by
  rw [joined,wordsOf,words,List.splitOnP_eq_singleton hs]
  cases s with
  | nil => rfl
  | cons c s => exact List.intercalate_singleton

end Words

section Run

def written (m : Memory) (dst : ℕ) (out : CString) : Cursor :=
  ⟨m.write dst out,dst+out.length,List.range' dst out.length⟩

theorem written_put (m : Memory) (dst : ℕ) (out : CString) (c : UInt8) :
    (written m dst out).put c = written m dst (out ++ [c]) := by
  rw [written,written,Cursor.put,update_write,List.length_append,List.length_singleton,List.range'_concat,Nat.one_mul]
  rfl

variable {m : Memory} {str : ℕ}

theorem stripEnd_eq {s : CString} (hm : HoldsAt m str s) :
    stripEnd m str s.length = (removeTrailing isspace s).length := by
  induction s using List.reverseRecOn with
  | nil => rfl
  | append_singleton s c ih =>
    have hc : m (str+s.length) = c := hm.right.head
    rw [List.length_append,List.length_singleton,stripEnd,hc,removeTrailing_concat]
    by_cases hspace : isspace c = true
    · rw [if_pos hspace,if_pos hspace,ih hm.left]
    · rw [if_neg hspace,if_neg hspace,List.length_append,List.length_singleton]

theorem stripStart_eq {s : CString} {i : ℕ} (hm : HoldsAt m (str+i) s) :
    stripStart m str i s.length = i+(s.takeWhile isspace).length := by
  induction s generalizing i with
  | nil => rfl
  | cons c s ih =>
    rw [List.length_cons,stripStart,hm.head]
    by_cases hspace : isspace c = true
    · rw [if_pos hspace,ih (i := i+1) hm.tail,List.takeWhile_cons_of_pos hspace,List.length_cons]
      omega
    · rw [if_neg hspace,List.takeWhile_cons_of_neg hspace]
      rfl

/-- In front of a character that is no white space, the inner loop stops there. -/
theorem skipSpaces_eq {s r : CString} {d : UInt8} {i fuel : ℕ} (hm : HoldsAt m (str+i) s)
    (hs : s.dropWhile isspace = d::r) (hfuel : (s.takeWhile isspace).length < fuel) :
    skipSpaces m str fuel i = some (i+(s.takeWhile isspace).length) := by
  induction s generalizing i fuel with
  | nil => cases hs
  | cons c s ih =>
    obtain ⟨fuel,rfl⟩ : ∃ k, fuel = k+1 := ⟨fuel-1,by omega⟩
    rw [skipSpaces,hm.head]
    by_cases hspace : isspace c = true
    · rw [List.dropWhile_cons_of_pos hspace] at hs
      rw [List.takeWhile_cons_of_pos hspace,List.length_cons] at hfuel ⊢
      rw [if_pos hspace,ih (i := i+1) hm.tail hs (Nat.lt_of_succ_lt_succ hfuel)]
      congr 1
      omega
    · rw [if_neg hspace,List.takeWhile_cons_of_neg hspace]
      rfl

variable {dst len : ℕ}

theorem written_holds {i : ℕ} {out s : CString} (hplace : dst ≤ str ∨ str+len ≤ dst) (hout : out.length ≤ i)
    (hlen : i+s.length = len) (hm : HoldsAt m (str+i) s) : HoldsAt (written m dst out).mem (str+i) s := by
  intro k hk
  exact (write_of_not m dst (by omega)).trans (hm k hk)

theorem replaceLoop_spec {i fuel : ℕ} {out s : CString} (hplace : dst ≤ str ∨ str+len ≤ dst)
    (hm : HoldsAt m (str+i) s) (hlen : i+s.length = len) (hout : out.length ≤ i) (hend : endsInSpace s = false)
    (hfuel : s.length < fuel) :
    replaceLoop str len fuel i (written m dst out) = some (written m dst (out ++ whitespaceLoop s ++ [0])) := by
  induction hn : s.length using Nat.strong_induction_on generalizing i fuel out s with
  | _ n ih =>
    obtain ⟨fuel,rfl⟩ : ∃ k, fuel = k+1 := ⟨fuel-1,by omega⟩
    cases s with
    | nil =>
      rw [List.length_nil,Nat.add_zero] at hlen
      rw [replaceLoop,if_neg (by omega),written_put,whitespaceLoop,List.append_nil]
    | cons c s =>
      have hread := written_holds hplace hout hlen hm
      rw [List.length_cons] at hlen hfuel hn
      rw [replaceLoop,if_pos (by omega),hread.head]
      by_cases hc : isspace c = true
      · obtain ⟨d,r,hdrop,hd,hrest⟩ := exists_next hc hend
        obtain ⟨k,hk⟩ : ∃ k, ((c::s).takeWhile isspace).length = k+1 := by
          rw [List.takeWhile_cons_of_pos hc]
          exact ⟨_,rfl⟩
        have hskipped : (c::s).dropWhile isspace = d::r := by rw [List.dropWhile_cons_of_pos hc,hdrop]
        have hsplit : (c::s).takeWhile isspace ++ d::r = c::s := by
          rw [← hskipped,List.takeWhile_append_dropWhile]
        have hcount := congrArg List.length hsplit
        rw [List.length_append,hk,List.length_cons,List.length_cons] at hcount
        have hnext : HoldsAt m (str+(i+(k+1))) (d::r) := by
          rw [← hk,← Nat.add_assoc]
          exact (hsplit ▸ hm).right
        have hout' : (out ++ [chr '_']).length ≤ i+(k+1) := by
          rw [List.length_append,List.length_singleton]
          omega
        have hd' := (written_holds hplace hout' (by rw [List.length_cons]; omega) hnext).head
        rw [if_pos hc,skipSpaces_eq hread hskipped (by rw [hk]; omega),Option.bind_some,hk]
        simp only [written_put]
        rw [hd',ih r.length (by omega) (i := i+(k+1)+1) hnext.tail (by omega)
          (by rw [List.length_append]; exact Nat.succ_le_succ hout') (endsInSpace_tail hrest) (by omega) rfl,
          whitespaceLoop_space hc hd hdrop,whitespaceLoop_cons hd]
        simp only [List.append_assoc,List.cons_append,List.nil_append]
      · rw [Bool.not_eq_true] at hc
        rw [if_neg (by simp [hc]),written_put,
          ih s.length (by omega) hm.tail (by omega) (by rw [List.length_append,List.length_singleton]; omega) (endsInSpace_tail hend)
            (by omega) rfl,whitespaceLoop_cons hc]
        simp only [List.append_assoc,List.cons_append,List.nil_append]

/-- From one place of memory to the same or another, the words are written with their terminator. -/
theorem replaceWhitespaceRun_eq {fuel : ℕ} (hplace : dst ≤ str ∨ str+len ≤ dst) (hfuel : len < fuel) :
    replaceWhitespaceRun fuel m str dst len = some (written m dst (joined (m.textFrom str len) ++ [0])) := by
  obtain ⟨hm,hlen⟩ := holdsAt_textFrom m str len
  have hjoined := utilReplaceWhitespace_joined (m.textFrom str len) len
  rw [List.take_of_length_le hlen] at hjoined
  rw [utilReplaceWhitespace,List.take_of_length_le hlen] at hjoined
  rw [replaceWhitespaceRun,stripEnd_eq hm,← hjoined]
  have hprefix := List.rdropWhile_prefix isspace (l := m.textFrom str len)
  have hstripped : HoldsAt m (str+0) (removeTrailing isspace (m.textFrom str len)) := by
    obtain ⟨t,ht⟩ := hprefix
    exact HoldsAt.left (t := removeTrailing isspace (m.textFrom str len)) (ht.symm ▸ hm)
  have hend := removeTrailing_endsInSpace (m.textFrom str len)
  have hle : (removeTrailing isspace (m.textFrom str len)).length ≤ len := hprefix.length_le.trans hlen
  generalize removeTrailing isspace (m.textFrom str len) = s at hstripped hend hle ⊢
  have hsplit := List.takeWhile_append_dropWhile (p := isspace) (l := s)
  have hcount := congrArg List.length hsplit
  rw [List.length_append] at hcount
  have hrest : HoldsAt m (str+(s.takeWhile isspace).length) (s.dropWhile isspace) := by
    rw [← hsplit] at hstripped
    exact hstripped.right
  have hstart : written m dst [] = ⟨m,dst,[]⟩ := by
    rw [written,write_nil]
    rfl
  rw [stripStart_eq hstripped,Nat.zero_add,← hstart]
  exact replaceLoop_spec (by omega) hrest hcount (Nat.zero_le _) (endsInSpace_dropWhile hend) (by omega)

theorem textFrom_store (m : Memory) (pos : ℕ) {s : CString} {n : ℕ} (hnul : 0 ∉ s) (hlen : s.length ≤ n) :
    (m.store pos s).textFrom pos n = s := by
  have hm : HoldsAt (m.store pos s) pos s := fun _ hk => store_at m pos s hk.le
  rcases hlen.lt_or_eq with hlt | rfl
  · exact textFrom_eq hm (store_end m pos s) hnul hlt
  · exact hm.textFrom hnul

theorem store_store (m : Memory) (pos : ℕ) (s : CString) : (m.store pos s).store pos s = m.store pos s := by
  funext i
  rw [store]
  by_cases hin : pos ≤ i ∧ i ≤ pos+s.length
  · rw [if_pos hin,store,if_pos hin]
  · rw [if_neg hin]

end Run

/-- In other memory or in place, `util_replace_whitespace` writes the words of the string and its terminator, and the
result stays as it is. -/
theorem replace_whitespace (m : Memory) (str dst len fuel : ℕ) (hplace : dst ≤ str ∨ str+len ≤ dst) (hfuel : len < fuel) :
    ∃ other same, replaceWhitespaceRun fuel m str dst len = some other ∧ replaceWhitespaceRun fuel m str str len = some same ∧
      other.mem = m.store dst (joined (m.textFrom str len)) ∧
      other.writes = List.range' dst ((joined (m.textFrom str len)).length+1) ∧ other.writes.length ≤ len+1 ∧
      same.mem = m.store str (joined (m.textFrom str len)) ∧
      other.mem.textFrom dst (len+1) = joined (m.textFrom str len) ∧
      same.mem.textFrom str (len+1) = joined (m.textFrom str len) ∧
      ∀ n again, (joined (m.textFrom str len)).length ≤ n → n < again →
        ∃ w, replaceWhitespaceRun again other.mem dst dst n = some w ∧ w.mem = other.mem := by
  obtain ⟨-,htext⟩ := holdsAt_textFrom m str len
  have hlen : (joined (m.textFrom str len)).length ≤ len := (joined_length _).trans htext
  have hnul : 0 ∉ joined (m.textFrom str len) := fun h =>
    (mem_joined h).2.elim (by decide) (textFrom_nul m str len)
  have hspace : ∀ c ∈ joined (m.textFrom str len), isspace c = false := fun c hc => (mem_joined hc).1
  have hmem : ∀ pos, (written m pos (joined (m.textFrom str len) ++ [0])).mem = m.store pos (joined (m.textFrom str len)) :=
    fun pos => (store_eq_write m pos _).symm
  have hwrites : (written m dst (joined (m.textFrom str len) ++ [0])).writes =
      List.range' dst ((joined (m.textFrom str len)).length+1) := by
    rw [written,List.length_append,List.length_singleton]
  refine ⟨_,_,replaceWhitespaceRun_eq hplace hfuel,replaceWhitespaceRun_eq (Or.inl le_rfl) hfuel,hmem dst,hwrites,?_,
    hmem str,?_,?_,?_⟩
  · rw [hwrites,List.length_range']
    exact Nat.succ_le_succ hlen
  · rw [hmem,textFrom_store m dst hnul (hlen.trans (Nat.le_succ len))]
  · rw [hmem,textFrom_store m str hnul (hlen.trans (Nat.le_succ len))]
  · intro n again hn hagain
    refine ⟨_,replaceWhitespaceRun_eq (Or.inl le_rfl) hagain,?_⟩
    rw [hmem,textFrom_store m dst hnul hn,joined_of_no_space hspace]
    exact (store_eq_write _ dst _).symm.trans (store_store m dst _)

theorem replace_whitespace_blank :
    ∃ other same, replaceWhitespaceRun 9 (Memory.store (fun _ => 0) 0 (str "  ab  c ")) 0 16 8 = some other ∧
      replaceWhitespaceRun 9 (Memory.store (fun _ => 0) 0 (str "  ab  c ")) 0 0 8 = some same ∧
      other.mem.textFrom 16 9 = str "ab_c" ∧ same.mem.textFrom 0 9 = str "ab_c" := by
  have hjoined : joined ((Memory.store (fun _ => 0) 0 (str "  ab  c ")).textFrom 0 8) = str "ab_c" := by decide
  obtain ⟨other,same,hother,hsame,-,-,-,-,hcopy,hplace,-⟩ :=
    replace_whitespace (Memory.store (fun _ => 0) 0 (str "  ab  c ")) 0 16 8 9 (Or.inr (by decide)) (by decide)
  rw [hjoined] at hcopy hplace
  exact ⟨other,same,hother,hsame,hcopy,hplace⟩

end ReplaceWhitespace
end Udev
