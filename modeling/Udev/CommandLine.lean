import Udev.Matching
import Udev.WordTails

/-! IMPORT of a key of the kernel command line: what the first occurrence of the key gives, against
the first word of the line that is the key or sets it. -/
namespace Udev
namespace Rules

open CString Text WordTails

abbrev wordsOf (s : CString) : List CString := words isspace s

def SetsKey (key w : CString) : Prop := w = key ∨ key ++ [chr '='] <+: w

instance (key w : CString) : Decidable (SetsKey key w) := inferInstanceAs (Decidable (_ ∨ _))

/-- The value in such a word: 1 without a '='. -/
def wordValue (key w : CString) : CString := if w = key then str "1" else w.drop (key.length+1)

/-- The value of the first word that sets the key. -/
def wantedValue (key : CString) (ws : List CString) : Option CString := (ws.find? (SetsKey key ·)).map (wordValue key)

def hasKey (key w : CString) : Bool := (strstr w key).isSome

def valueBehind (b : CString) : Option CString :=
  if b = [] then some (str "1") else if charAt b 0 = chr '=' then some (b.drop 1) else none

/-- When the first occurrence of the key decides right, for the words of the command line and the line
that is read. The first word read with the key in it sets the key and is the first of all words
with the key in it; or the bytes behind the key in it give what is wanted by chance. An empty key
is also found in the white space at the begin of a line. -/
def DecidesRight (key : CString) (ws : List CString) (line : CString) : Prop :=
  if key = [] ∧ (line = [] ∨ isspace (charAt line 0) = true) then wantedValue key ws = some (str "1")
  else
    match (wordsOf line).find? (hasKey key) with
    | none => ∀ w ∈ ws, ¬SetsKey key w
    | some u => SetsKey key u ∧ ws.find? (hasKey key) = some u ∨ (option u key).bind valueBehind = wantedValue key ws

/-- The text begins with a byte that is not in the key, or is empty. -/
def Apart (key r : CString) : Prop := ∀ c cs, r = c::cs → c ∉ key

theorem prefix_append_apart {key r : CString} (hr : Apart key r) (w : CString) : key <+: w ++ r ↔ key <+: w := by
  constructor
  · intro h
    rcases Nat.le_total key.length w.length with hlen | hlen
    · exact List.prefix_of_prefix_length_le h (List.prefix_append w r) hlen
    · obtain ⟨b,rfl⟩ := List.prefix_of_prefix_length_le (List.prefix_append w r) h hlen
      have hb := (List.prefix_append_right_inj w).mp h
      cases b with
      | nil => rw [List.append_nil]
      | cons c b =>
        obtain ⟨r',rfl⟩ := hb
        exact absurd (List.mem_append_right w List.mem_cons_self) (hr c (b ++ r') rfl)
  · exact fun h => h.trans (List.prefix_append w r)

theorem strstr_append {key r : CString} (hr : Apart key r) (hkey : key ≠ []) (w : CString) :
    strstr (w ++ r) key = ((strstr w key).map (· ++ r)).or (strstr r key) := by
  induction w with
  | nil => rw [strstr,if_neg hkey]; rfl
  | cons c w ih =>
    rw [List.cons_append,strstr,strstr]
    have hpre : key.isPrefixOf (c::(w ++ r)) = true ↔ key.isPrefixOf (c::w) = true := by
      rw [List.isPrefixOf_iff_prefix,List.isPrefixOf_iff_prefix]
      exact prefix_append_apart hr (c::w)
    by_cases h : key.isPrefixOf (c::w) = true
    · rw [if_pos h,if_pos (hpre.mpr h)]
      rfl
    · rw [if_neg h,if_neg (mt hpre.mp h),ih]

theorem words_cons_sep {c : UInt8} (hc : isspace c = true) (s : CString) : wordsOf (c::s) = wordsOf s := by
  rw [wordsOf,← map_wordTails,wordTails_cons_sep hc,map_wordTails]

theorem words_cons {c : UInt8} (hc : isspace c = false) (s : CString) :
    wordsOf (c::s) = (c::s).takeWhile (!isspace ·)::wordsOf (s.dropWhile (!isspace ·)) := by
  rw [wordsOf,← map_wordTails,wordTails_cons hc,List.map_cons,map_wordTails]

/-- A text that does not begin with white space begins with its first word. -/
theorem exists_word {c : UInt8} (hc : isspace c = false) (s : CString) :
    ∃ w r, c::s = w ++ r ∧ wordsOf (c::s) = w::wordsOf r ∧ (∀ x ∈ w, isspace x = false) ∧
      (r = [] ∨ isspace (charAt r 0) = true) ∧ r.length ≤ s.length := by
  have hdrop : (c::s).dropWhile (!isspace ·) = s.dropWhile (!isspace ·) := List.dropWhile_cons_of_pos (by rw [hc]; rfl)
  refine ⟨_,(c::s).dropWhile (!isspace ·),List.takeWhile_append_dropWhile.symm,?_,?_,?_,?_⟩
  · rw [hdrop]
    exact words_cons hc s
  · intro x hx
    simpa using List.mem_takeWhile_imp hx
  · have hhead := List.head?_dropWhile_not (!isspace ·) (c::s)
    cases hrest : (c::s).dropWhile (!isspace ·) with
    | nil => exact Or.inl rfl
    | cons x r =>
      rw [hrest] at hhead
      have hx : isspace x = true := by simpa using hhead
      exact Or.inr hx
  · rw [hdrop]
    exact List.length_dropWhile_le _ _

theorem apart_of_space {key r : CString} (hspace : ∀ c ∈ key, isspace c = false)
    (hr : r = [] ∨ isspace (charAt r 0) = true) : Apart key r := by
  rintro x xs rfl hmem
  have hx : isspace x = true := hr.resolve_left (List.cons_ne_nil x xs)
  rw [hspace x hmem] at hx
  cases hx

/-- The first word with the key in it has the first occurrence of the key, and white space or nothing
comes behind the word. -/
theorem option_words {key : CString} (hkey : key ≠ []) (hspace : ∀ c ∈ key, isspace c = false) (s : CString) :
    match (wordsOf s).find? (hasKey key) with
    | none => option s key = none
    | some u => ∃ b r, option u key = some b ∧ option s key = some (b ++ r) ∧ (r = [] ∨ isspace (charAt r 0) = true) ∧
        ∀ c ∈ b, isspace c = false := by
  induction hn : s.length using Nat.strong_induction_on generalizing s with
  | _ n ih =>
    cases s with
    | nil =>
      show option [] key = none
      rw [option,strstr,if_neg hkey]
      rfl
    | cons c s =>
      cases hc : isspace c with
      | true =>
        obtain ⟨k,ks,rfl⟩ := List.exists_cons_of_ne_nil hkey
        have hpre : ¬(k::ks).isPrefixOf (c::s) = true := by
          rw [List.isPrefixOf_iff_prefix]
          intro h
          rw [← (List.cons_prefix_cons.mp h).1,hspace k List.mem_cons_self] at hc
          cases hc
        have hoption : option (c::s) (k::ks) = option s (k::ks) := by
          rw [option,strstr,if_neg hpre]
          rfl
        rw [words_cons_sep hc,hoption]
        exact ih s.length (by rw [← hn]; exact Nat.lt_succ_self _) s rfl
      | false =>
        obtain ⟨w,r,hsplit,hwords,hword,hend,hlen⟩ := exists_word hc s
        have hapart := apart_of_space hspace hend
        have hrest := ih r.length (by rw [← hn]; exact Nat.lt_succ_of_le hlen) r rfl
        rw [hwords,hsplit]
        cases hfound : strstr w key with
        | none =>
          have hno : hasKey key w = false := by rw [hasKey,hfound]; rfl
          have hoption : option (w ++ r) key = option r key := by
            rw [option,strstr_append hapart hkey,hfound]
            rfl
          rw [List.find?_cons_of_neg (by rw [hno]; decide),hoption]
          exact hrest
        | some t =>
          have hyes : hasKey key w = true := by rw [hasKey,hfound]; rfl
          obtain ⟨a,rfl,hpre,-⟩ := strstr_eq_some hfound
          rw [List.find?_cons_of_pos hyes]
          refine ⟨t.drop key.length,r,?_,?_,hend,?_⟩
          · rw [option,hfound,Option.map_some]
          · rw [option,strstr_append hapart hkey,hfound,Option.map_some,Option.some_or,Option.map_some,
              List.drop_append_of_le_length hpre.length_le]
          · intro x hx
            exact hword x (List.mem_append_right a (List.mem_of_mem_drop hx))

def lineValue (key line : CString) : Option CString :=
  (option line key).bind fun pos =>
    if pos = [] ∨ isspace (charAt pos 0) then some (str "1")
    else if charAt pos 0 = chr '=' then some ((pos.drop 1).takeWhile fun c => !isspace c)
    else none

/-- For a word that is followed by white space or nothing, the value is the one of the word. -/
theorem lineValue_append {key line b r : CString} (h : option line key = some (b ++ r))
    (hr : r = [] ∨ isspace (charAt r 0) = true) (hb : ∀ c ∈ b, isspace c = false) :
    lineValue key line = valueBehind b := by
  rw [lineValue,h,Option.bind_some,valueBehind]
  cases b with
  | nil => rw [if_pos (by rw [List.nil_append]; exact hr),if_pos rfl]
  | cons x b =>
    have hx : charAt (x::b ++ r) 0 = x := rfl
    have htake : (b ++ r).takeWhile (fun c => !isspace c) = b := by
      have hall : ∀ c ∈ b, (!isspace c) = true := fun c hc => by rw [hb c (List.mem_cons_of_mem _ hc)]; rfl
      rw [List.takeWhile_append_of_pos hall]
      cases r with
      | nil => rw [List.takeWhile_nil,List.append_nil]
      | cons y r =>
        rcases hr with hr | hr
        · cases hr
        · rw [List.takeWhile_cons_of_neg (by have : isspace y = true := hr; rw [this]; decide),List.append_nil]
    have hnot : ¬(x::b ++ r = [] ∨ isspace x = true) := by
      rw [hb x List.mem_cons_self]
      simp
    rw [hx,if_neg hnot,if_neg (List.cons_ne_nil x b)]
    show (if x = chr '=' then some ((b ++ r).takeWhile fun c => !isspace c) else none) =
      if x = chr '=' then some b else none
    rw [htake]

/-- The import without an empty key, by the first word with the key in it. -/
theorem lineValue_eq {key : CString} (hkey : key ≠ []) (hspace : ∀ c ∈ key, isspace c = false) (line : CString) :
    lineValue key line = ((wordsOf line).find? (hasKey key)).bind fun u => (option u key).bind valueBehind := by
  have hwords := option_words hkey hspace line
  cases hfind : (wordsOf line).find? (hasKey key) with
  | none =>
    rw [hfind] at hwords
    rw [lineValue,hwords]
    rfl
  | some u =>
    rw [hfind] at hwords
    obtain ⟨b,r,hu,hline,hr,hb⟩ := hwords
    rw [lineValue_append hline hr hb,Option.bind_some,hu,Option.bind_some]

theorem option_self {key : CString} {u : CString} (h : key <+: u) : option u key = some (u.drop key.length) := by
  have hstr : strstr u key = some u := by
    cases u with
    | nil => rw [strstr,if_pos (List.prefix_nil.mp h)]
    | cons c u => rw [strstr,if_pos (List.isPrefixOf_iff_prefix.mpr h)]
  rw [option,hstr,Option.map_some]

theorem SetsKey.value {key u : CString} (h : SetsKey key u) :
    key <+: u ∧ (option u key).bind valueBehind = some (wordValue key u) := by
  rcases h with rfl | ⟨v,rfl⟩
  · refine ⟨List.prefix_refl u,?_⟩
    rw [option_self (List.prefix_refl u),List.drop_length,wordValue,if_pos rfl]
    rfl
  · have hpre : key <+: key ++ [chr '='] ++ v := by
      rw [List.append_assoc]
      exact List.prefix_append key _
    refine ⟨hpre,?_⟩
    rw [option_self hpre,wordValue,if_neg (by simp)]
    simp [valueBehind,charAt,List.drop_append]

/-- The first word that sets the key is among the words with the key in them. -/
theorem wantedValue_of_first {key u : CString} {ws : List CString} (hu : SetsKey key u)
    (hfirst : ws.find? (hasKey key) = some u) : wantedValue key ws = some (wordValue key u) := by
  have hhas : ∀ w, SetsKey key w → hasKey key w = true := by
    intro w hw
    rw [hasKey,strstr_isSome]
    exact hw.value.1.isInfix
  obtain ⟨-,before,after,rfl,hbefore⟩ := List.find?_eq_some_iff_append.mp hfirst
  rw [wantedValue,List.find?_append]
  have hnone : before.find? (SetsKey key ·) = none := by
    rw [List.find?_eq_none]
    intro w hw hsets
    have := hbefore w hw
    rw [hhas w (of_decide_eq_true hsets)] at this
    cases this
  rw [hnone,Option.none_or,List.find?_cons_of_pos (by simpa using hu),Option.map_some]

theorem wantedValue_eq_none {key : CString} {ws : List CString} : wantedValue key ws = none ↔ ∀ w ∈ ws, ¬SetsKey key w := by
  rw [wantedValue,Option.map_eq_none_iff,List.find?_eq_none]
  simp

theorem option_nil (s : CString) : option s [] = some s := option_self List.nil_prefix

/-- An empty key is found in the first word, where the line begins with it. -/
theorem lineValue_nil {line : CString} (hne : line ≠ []) (hc : isspace (charAt line 0) = false) :
    lineValue [] line = ((wordsOf line).find? (hasKey [])).bind fun u => (option u []).bind valueBehind := by
  cases line with
  | nil => exact absurd rfl hne
  | cons c s =>
    have hc : isspace c = false := hc
    obtain ⟨w,r,hsplit,hwords,hword,hend,-⟩ := exists_word hc s
    rw [hwords]
    have hyes : hasKey [] w = true := by
      rw [hasKey,strstr_isSome]
      exact List.nil_infix
    rw [List.find?_cons_of_pos hyes,Option.bind_some,option_nil,Option.bind_some]
    exact lineValue_append (by rw [option_nil,hsplit]) hend hword

/-- The value that is imported from a line is the wanted one if and only if the first occurrence decides right. -/
theorem lineValue_right {key : CString} (hspace : ∀ c ∈ key, isspace c = false) (ws : List CString) (line : CString) :
    lineValue key line = wantedValue key ws ↔ DecidesRight key ws line := by
  rw [DecidesRight]
  by_cases hempty : key = [] ∧ (line = [] ∨ isspace (charAt line 0) = true)
  · rw [if_pos hempty]
    obtain ⟨rfl,hline⟩ := hempty
    rw [lineValue,option_nil,Option.bind_some,if_pos hline,eq_comm]
  · have hvalue : lineValue key line = ((wordsOf line).find? (hasKey key)).bind fun u => (option u key).bind valueBehind := by
      by_cases hkey : key = []
      · subst hkey
        have hline : ¬(line = [] ∨ isspace (charAt line 0) = true) := fun h => hempty ⟨rfl,h⟩
        rw [not_or] at hline
        exact lineValue_nil hline.1 (Bool.eq_false_iff.mpr hline.2)
      · exact lineValue_eq hkey hspace line
    rw [if_neg hempty,hvalue]
    cases hfind : (wordsOf line).find? (hasKey key) with
    | none =>
      rw [Option.bind_none,eq_comm]
      exact wantedValue_eq_none
    | some u =>
      rw [Option.bind_some]
      constructor
      · exact Or.inr
      · rintro (⟨hu,hfirst⟩ | h)
        · rw [hu.value.2,wantedValue_of_first hu hfirst]
        · exact h

section Import

variable {σ : Type} {h : Host σ} {s : σ} {content : List UInt8}

theorem cmdlineImports_eq (hfile : h.readFile s (str "/proc/cmdline") = some content) (key : CString) :
    cmdlineImports h s key =
      (fgets 4096 content).bind fun line => (lineValue key line.1).map fun v => [⟨key,some v,true⟩] := by
  rw [cmdlineImports,hfile,Option.bind_some]
  congr 1
  funext line
  rw [lineValue,Option.map_bind]
  congr 1
  funext pos
  simp only [Function.comp_apply]
  split_ifs
  · rfl
  · rfl
  · rfl

/-- For a key without white space, the import from a kernel command line gives the value of the first
word that is the key or sets it, and fails without such a word, if and only if the first occurrence
of the key in the line that is read decides right. -/
theorem cmdlineImports_iff (hfile : h.readFile s (str "/proc/cmdline") = some content) {key : CString}
    (hspace : ∀ c ∈ key, isspace c = false) :
    cmdlineImports h s key = (wantedValue key (wordsOf content)).map (fun v => [⟨key,some v,true⟩]) ↔
      ∀ line, fgets 4096 content = some line → DecidesRight key (wordsOf content) line.1 := by
  rw [cmdlineImports_eq hfile]
  cases hread : fgets 4096 content with
  | none =>
    have hnil : content = [] := by
      by_contra hne
      rw [fgets,if_neg hne] at hread
      cases hread
    subst hnil
    refine iff_of_true rfl ?_
    intro line hline
    cases hline
  | some line =>
    rw [Option.bind_some,Option.map_inj_right (by intro v w hvw; simpa using hvw)]
    constructor
    · intro heq l hl
      rw [← Option.some.inj hl]
      exact (lineValue_right hspace _ _).mp heq
    · intro hright
      exact (lineValue_right hspace _ _).mpr (hright line rfl)

end Import

def bootedHost (cmdline : CString) : Host Unit :=
  { emptyHost with readFile := fun _ path => if path = str "/proc/cmdline" then some (cmdline ++ str "\n") else none }

/-- The key is also the begin of an earlier word. -/
theorem quiet_not_imported :
    cmdlineImports (bootedHost (str "quietly quiet")) () (str "quiet") ≠
      (wantedValue (str "quiet") (wordsOf (str "quietly quiet\n"))).map fun v => [⟨str "quiet",some v,true⟩] := by
  decide +kernel

theorem quiet_imported :
    cmdlineImports (bootedHost (str "ro quiet splash")) () (str "quiet") =
      (wantedValue (str "quiet") (wordsOf (str "ro quiet splash\n"))).map fun v => [⟨str "quiet",some v,true⟩] := by
  refine (cmdlineImports_iff rfl (by decide +kernel)).mpr fun line hline => ?_
  have hread : fgets 4096 (str "ro quiet splash\n") = some (str "ro quiet splash\n",[]) := by decide +kernel
  have hfind : (wordsOf (str "ro quiet splash\n")).find? (hasKey (str "quiet")) = some (str "quiet") := by decide +kernel
  obtain rfl := Option.some.inj (hread.symm.trans hline)
  rw [DecidesRight,if_neg (by decide +kernel),hfind]
  exact Or.inl ⟨by decide +kernel,hfind⟩

end Rules
end Udev
