import Udev.ParseArgv
import Udev.Token

/-! The array of 128 pointers that `udev_event_spawn` and `udev_builtin_run` pass to `parse_argv`,
which does not know its size. -/
namespace Udev
namespace ParseArgv

open CString RuleLine Text Rules

/-- `char *argv[128] = {}` and what the memory holds behind it. -/
def zeroedArgv (behind : ℕ → Option ℕ) (j : ℕ) : Option ℕ := if j < 128 then none else behind j

def commandArgv (behind : ℕ → Option ℕ) (cmd : CString) : Option Split :=
  parseArgv (strscpy utilPathSize cmd ++ [0]) (zeroedArgv behind)

/-- What is executed: a program without a path is the one in the directory of udev. There is none
when `argv[0]` is `NULL`, which is read all the same. -/
def spawnProgram (libexecdir : CString) (r : Split) : Option CString :=
  (r.argv 0).map fun a =>
    if charAt r.buf a ≠ chr '/' then strscpyl utilPathSize [libexecdir,str "/",cstr r.buf a] else cstr r.buf a

/-- Nothing outside of the array was written, and behind the last argument there is `NULL` in it. -/
structure Kept (r : Split) : Prop where
  stores : ∀ k ∈ r.stores, k < 128
  inside : r.i < 128
  null : r.argv r.i = none

/-- `udev_event_spawn` up to the fork. -/
def SpawnSafe (libexecdir : CString) (behind : ℕ → Option ℕ) (cmd : CString) : Prop :=
  ∃ r, commandArgv behind cmd = some r ∧ Kept r ∧ (spawnProgram libexecdir r).isSome

/-- `udev_builtin_run` up to the builtin command, which is given its name in `argv[0]`. -/
def BuiltinSafe (behind : ℕ → Option ℕ) (cmd : CString) : Prop :=
  ∃ r, commandArgv behind cmd = some r ∧ Kept r ∧ (r.argv 0).isSome

def argumentCount (ts : List Token) : ℕ := (arguments none ts).length

variable {st f : Split} {s cmd : CString} {ts : List Token} {closed : Bool}

theorem finish_i (st : Split) : st.finish.i = st.i+(st.argv st.i).toList.length := by
  rw [Split.finish]
  cases hargv : st.argv st.i <;> simp

theorem finish_addQuoted (st : Split) (r : List UInt8 × ℕ) : st.finish.i ≤ (st.addQuoted r).finish.i := by
  have hlen : (st.argv st.i).toList.length ≤ 1 := by cases st.argv st.i <;> simp
  have hi : (st.addQuoted r).i = st.i+1 := rfl
  rw [finish_i,finish_i,hi]
  omega

theorem finish_blank (st : Split) : st.finish.i ≤ st.blank.finish.i := by
  rw [Split.blank]
  cases hargv : st.argv st.i with
  | none =>
    rw [Option.isSome_none,if_neg (by simp),finish_i,finish_i]
  | some a =>
    rw [Option.isSome_some,if_pos rfl,finish_i,finish_i,hargv]
    exact Nat.le_add_right ..

theorem finish_char (st : Split) : st.finish.i ≤ st.char.finish.i ∧ st.i+1 ≤ st.char.finish.i := by
  rw [Split.char]
  cases hargv : st.argv st.i with
  | none =>
    rw [Option.isNone_none,if_pos rfl,finish_i,finish_i,hargv]
    have hset : (st.store st.p).argv st.i = some st.p := Function.update_self ..
    have hi : (st.store st.p).i = st.i := rfl
    dsimp only
    rw [hi,hset]
    exact ⟨Nat.le_succ _,le_rfl⟩
  | some a =>
    rw [Option.isNone_some,if_neg (by simp),finish_i,finish_i,hargv]
    exact ⟨le_rfl,le_rfl⟩

theorem parseArgvLoop_finish {n : ℕ} (h : parseArgvLoop n st = some f) : st.finish.i ≤ f.finish.i := by
  induction n generalizing st with
  | zero =>
    rw [parseArgvLoop] at h
    split_ifs at h
    rw [Option.some.inj h]
  | succ n ih =>
    rw [parseArgvLoop] at h
    by_cases hend : charAt st.buf st.p = 0
    · rw [if_pos hend] at h
      rw [Option.some.inj h]
    rw [if_neg hend] at h
    by_cases hquote : IsQuote (charAt st.buf st.p)
    · rw [if_pos hquote] at h
      cases hparse : parseValue st.buf st.p (st.p+1) with
      | none =>
        rw [hparse] at h
        rw [← Option.some.inj h,finish_i,finish_i]
      | some r =>
        rw [hparse] at h
        exact (finish_addQuoted st r).trans (ih h)
    rw [if_neg hquote] at h
    by_cases hblank : charAt st.buf st.p = chr ' '
    · rw [if_pos hblank] at h
      exact (finish_blank st).trans (ih h)
    · rw [if_neg hblank] at h
      exact (finish_char st).1.trans (ih h)

theorem parseArgvLoop_isSome (htokens : Tokens s ts closed) (h0 : 0 ∉ s) {n : ℕ} (hn : s.length ≤ n)
    {done : List UInt8} (h : At st done s) : (parseArgvLoop n st).isSome := by
  induction htokens generalizing n st done with
  | nil =>
    rw [h.loop_nil]
    rfl
  | @unclosed q s v hq hvalue =>
    obtain ⟨n,rfl,-⟩ := exists_fuel hn
    rw [h.loop_unclosed hq (fun hmem => h0 (List.mem_cons_of_mem _ hmem)) hvalue]
    rfl
  | @char c s ts closed hc _ ih =>
    obtain ⟨n,rfl,hn'⟩ := exists_fuel hn
    have hzero : c ≠ 0 := fun hc0 => h0 (by simp [hc0])
    have h0' : 0 ∉ s := fun hmem => h0 (List.mem_cons_of_mem _ hmem)
    rw [h.loop_char hzero hc]
    split_ifs
    · obtain ⟨done',h'⟩ := h.blank
      exact ih h0' hn' h'
    · exact ih h0' hn' h.char
  | @quoted q s v rest ts closed hq hvalue _ ih =>
    obtain ⟨n,rfl,hn'⟩ := exists_fuel hn
    have h0' : 0 ∉ s := fun hmem => h0 (List.mem_cons_of_mem _ hmem)
    obtain ⟨r,done',hparse,h'⟩ := h.quoted hq h0' hvalue
    rw [h.loop_quoted hq hparse]
    exact ih (fun hmem => h0' (hvalue.rest_subset hmem)) (hvalue.rest_length.le.trans hn') h'

theorem parseArgvLoop_full (htokens : Tokens s ts closed) (h0 : 0 ∉ s) {n N : ℕ} (hn : s.length ≤ n)
    {done : List UInt8} {args : List CString} {word : Option CString} (h : Inv N st done args word s)
    (hroom : args.length+word.toList.length < N) (hfull : N ≤ (args ++ arguments word ts).length)
    (hloop : parseArgvLoop n st = some f) : N ≤ f.finish.i := by
  induction htokens generalizing n st done args word with
  | nil =>
    rw [List.length_append] at hfull
    exact absurd hroom (Nat.not_lt_of_le hfull)
  | @unclosed q s v hq hvalue =>
    rw [List.length_append] at hfull
    exact absurd hroom (Nat.not_lt_of_le hfull)
  | @char c s ts closed hc _ ih =>
    obtain ⟨n,rfl,hn'⟩ := exists_fuel hn
    have hzero : c ≠ 0 := fun hc0 => h0 (by simp [hc0])
    have h0' : 0 ∉ s := fun hmem => h0 (List.mem_cons_of_mem _ hmem)
    rw [h.at.loop_char hzero hc] at hloop
    by_cases hblank : c = chr ' '
    · subst hblank
      rw [if_pos rfl] at hloop
      rw [arguments,if_pos rfl,← List.append_assoc] at hfull
      obtain ⟨done',h'⟩ := h.blank hroom
      exact ih h0' hn' h' (by simpa using hroom) hfull hloop
    · rw [if_neg hblank] at hloop
      rw [arguments,if_neg hblank] at hfull
      by_cases hlast : args.length+1 < N
      · exact ih h0' hn' (h.char hzero) hlast hfull hloop
      · have hi := h.i
        have hchar := (finish_char st).2
        have hmono := parseArgvLoop_finish hloop
        omega
  | @quoted q s v rest ts closed hq hvalue _ ih =>
    obtain ⟨n,rfl,hn'⟩ := exists_fuel hn
    have h0' : 0 ∉ s := fun hmem => h0 (List.mem_cons_of_mem _ hmem)
    rw [arguments,List.append_cons args v (arguments none ts)] at hfull
    by_cases hlast : args.length+1 < N
    · obtain ⟨r,done',hparse,h'⟩ := h.quoted hlast hq h0' hvalue
      rw [h.at.loop_quoted hq hparse] at hloop
      exact ih (fun hmem => h0' (hvalue.rest_subset hmem)) (hvalue.rest_length.le.trans hn') h' (by simpa using hlast)
        hfull hloop
    · obtain ⟨r,done',hparse,-⟩ := h.at.quoted hq h0' hvalue
      rw [h.at.loop_quoted hq hparse] at hloop
      have hi := h.i
      have hmono := parseArgvLoop_finish hloop
      rw [finish_i] at hmono
      have hquoted : (st.addQuoted r).i = st.i+1 := rfl
      omega

theorem parseArgv_isSome (h0 : 0 ∉ s) (argv : ℕ → Option ℕ) : (parseArgv (s ++ [0]) argv).isSome := by
  obtain ⟨ts,closed,htokens⟩ := exists_tokens s
  rw [parseArgv,Option.isSome_map]
  exact parseArgvLoop_isSome htokens h0 (by simp) (show At _ [] s from ⟨rfl,rfl⟩)

theorem commandArgv_eq (behind : ℕ → Option ℕ) (hlen : cmd.length ≤ 1023) :
    commandArgv behind cmd = parseArgv (cmd ++ [0]) (zeroedArgv behind) := by
  rw [commandArgv,strscpy_fits]
  exact Nat.lt_succ_of_le hlen

/-- The array is kept if and only if there is room for a `NULL` behind the arguments. -/
theorem commandArgv_spec (behind : ℕ → Option ℕ) (h0 : 0 ∉ cmd) (hlen : cmd.length ≤ 1023)
    (htokens : Tokens cmd ts closed) :
    ∃ r, commandArgv behind cmd = some r ∧ (Kept r ↔ argumentCount ts ≤ 127) ∧
      (Kept r → ((r.argv 0).isSome ↔ 1 ≤ argumentCount ts)) := by
  have hzero : ∀ j < 128, zeroedArgv behind j = none := fun j hj => if_pos hj
  rw [commandArgv_eq behind hlen]
  by_cases hcount : argumentCount ts < 128
  · obtain ⟨r,hr,hended,-⟩ := parseArgv_spec htokens h0 hzero hcount
    have hkept : Kept r := by
      constructor
      · exact fun k hk => (hended.stores k hk).trans hcount
      · rw [hended.i]
        exact hcount
      · rw [hended.i]
        exact hended.null
    refine ⟨r,hr,⟨fun _ => Nat.le_of_lt_succ hcount,fun _ => hkept⟩,fun _ => ?_⟩
    constructor
    · intro hsome
      by_contra hnot
      have hnull := hended.null
      rw [argumentCount] at hnot
      rw [show (arguments none ts).length = 0 by omega] at hnull
      rw [hnull] at hsome
      cases hsome
    · exact hended.argument 0
  · have hsome : (parseArgvLoop (cmd ++ [0]).length { buf := cmd ++ [0], argv := zeroedArgv behind }).isSome :=
      parseArgvLoop_isSome htokens h0 (by simp) (inv_start hzero (by decide) cmd).at
    obtain ⟨f,hf⟩ := Option.isSome_iff_exists.mp hsome
    have hfull : 128 ≤ f.finish.i :=
      parseArgvLoop_full htokens h0 (by simp) (inv_start hzero (by decide) cmd) (by decide) (Nat.le_of_not_lt hcount) hf
    have hnot : ¬Kept f.finish := fun h => absurd h.inside (Nat.not_lt_of_le hfull)
    refine ⟨f.finish,?_,⟨fun h => absurd h hnot,fun h => ?_⟩,fun h => absurd h hnot⟩
    · rw [parseArgv,hf]
      rfl
    · exact absurd (Nat.lt_succ_of_le h) hcount

theorem argumentCount_builtin (hlen : cmd.length ≤ 1023) (htokens : Tokens cmd ts closed)
    (hlookup : BuiltinCmd.lookup cmd ≠ .max) : 1 ≤ argumentCount ts := by
  have hnames : ∀ b ∈ BuiltinCmd.all, b.name ≠ [] ∧ ∀ c ∈ b.name, ¬IsQuote c := by decide +kernel
  have hcopy : strscpy utilPathSize cmd = cmd := strscpy_fits (Nat.lt_succ_of_le hlen)
  rw [BuiltinCmd.lookup,hcopy] at hlookup
  cases hfind : BuiltinCmd.all.find? fun c => c.name = cmd.takeWhile (· ≠ chr ' ') with
  | none =>
    simp only [hfind] at hlookup
    exact absurd rfl hlookup
  | some b =>
    have hname : b.name = cmd.takeWhile (· ≠ chr ' ') := by simpa using List.find?_some hfind
    obtain ⟨hne,hquote⟩ := hnames b (List.mem_of_find?_eq_some hfind)
    rw [hname] at hne hquote
    cases cmd with
    | nil => exact absurd rfl hne
    | cons c cmd =>
      by_cases hc : c = chr ' '
      · exact absurd (List.takeWhile_cons_of_neg (by simpa using hc)) hne
      · rw [List.takeWhile_cons_of_pos (by simpa using hc)] at hquote
        have hnot := hquote c List.mem_cons_self
        cases htokens with
        | unclosed hq => exact absurd hq hnot
        | quoted hq => exact absurd hq hnot
        | @char _ _ ts _ _ h =>
          rw [argumentCount,arguments,if_neg hc]
          exact length_arguments (some _) ts

/-- A program is spawned safely if and only if its command has an argument and at most 127 of
them; for a builtin, whose name is an argument, there must be at most 127. -/
theorem commandArgv_safe_iff (libexecdir : CString) (behind : ℕ → Option ℕ) (h0 : 0 ∉ cmd) (hlen : cmd.length ≤ 1023)
    (htokens : Tokens cmd ts closed) :
    (SpawnSafe libexecdir behind cmd ↔ 1 ≤ argumentCount ts ∧ argumentCount ts ≤ 127) ∧
    (BuiltinCmd.lookup cmd ≠ .max → (BuiltinSafe behind cmd ↔ argumentCount ts ≤ 127)) := by
  obtain ⟨r,hr,hkept,hargv⟩ := commandArgv_spec behind h0 hlen htokens
  constructor
  · rw [SpawnSafe,hr]
    simp only [Option.some.injEq,exists_eq_left']
    rw [spawnProgram,Option.isSome_map]
    constructor
    · rintro ⟨h,hsome⟩
      exact ⟨(hargv h).mp hsome,hkept.mp h⟩
    · rintro ⟨hone,h⟩
      exact ⟨hkept.mpr h,(hargv (hkept.mpr h)).mpr hone⟩
  · intro hlookup
    have hone := argumentCount_builtin hlen htokens hlookup
    rw [BuiltinSafe,hr]
    simp only [Option.some.injEq,exists_eq_left']
    constructor
    · rintro ⟨h,-⟩
      exact hkept.mp h
    · intro h
      exact ⟨hkept.mpr h,(hargv (hkept.mpr h)).mpr hone⟩

theorem spawn_sh_safe : SpawnSafe (str "/usr/lib/udev") (fun _ => none) (str "sh -c x") := by
  have htokens : Tokens (str "sh -c x") ((str "sh -c x").map .char ++ []) true :=
    tokens_word (a := str "sh -c x") (by decide +kernel) .nil
  exact (commandArgv_safe_iff (str "/usr/lib/udev") (fun _ => none) (by decide) (by decide) htokens).1.mpr
    (by decide +kernel)

/-- A rule can expand to more words than there are pointers. -/
def manyWords : CString := (List.replicate 129 (str "a ")).flatten

/-- The array is `NULL` for an empty command, and it is too short for many words. -/
theorem spawn_unsafe :
    ¬SpawnSafe (str "/usr/lib/udev") (fun _ => none) [] ∧ 0 ∉ manyWords ∧ manyWords.length ≤ 1023 ∧
      ¬SpawnSafe (str "/usr/lib/udev") (fun _ => none) manyWords := by
  have h0 : 0 ∉ manyWords := by decide +kernel
  have hlen : manyWords.length ≤ 1023 := by decide +kernel
  refine ⟨?_,h0,hlen,?_⟩
  · rintro ⟨r,hr,-,hsome⟩
    have hnull : (commandArgv (fun _ => none) []).map (fun r => r.argv 0) = some none := by decide +kernel
    rw [hr] at hnull
    have hargv : r.argv 0 = none := Option.some.inj hnull
    rw [spawnProgram,hargv] at hsome
    cases hsome
  · have htokens : Tokens manyWords (manyWords.map .char ++ []) true := by
      have h := tokens_word (a := manyWords) (by decide +kernel) .nil
      rwa [List.append_nil] at h
    obtain ⟨r,hr,hkept,-⟩ := commandArgv_spec (fun _ => none) h0 hlen htokens
    have hmany : ¬argumentCount (manyWords.map .char ++ []) ≤ 127 := by decide +kernel
    rintro ⟨f,hf,hfkept,-⟩
    obtain rfl := Option.some.inj (hr.symm.trans hf)
    exact hmany (hkept.mp hfkept)

end ParseArgv
end Udev
