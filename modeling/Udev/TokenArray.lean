import Udev.Token

/-! The array of tokens of the rules, which grows as tokens are added, and how `sort_token`
fills it with the tokens of one rule. -/
namespace Udev
namespace Rules

open StableSort

open scoped List

/-- The tokens of `struct rules`: of `token_max` slots the first `token_cur` are in use. -/
structure TokenArray where
  tokens : List Token
  tokenCur : ℕ
  fits : tokenCur ≤ tokens.length

namespace TokenArray

def tokenMax (a : TokenArray) : ℕ := a.tokens.length

def added (a : TokenArray) : List Token := a.tokens.take a.tokenCur

/-- The buffer of `add_token`: it is doubled while one more slot would not stay free. The
new slots hold what the memory held before. -/
def grow (junk : ℕ → Token) (a : TokenArray) : List Token :=
  if a.tokenCur+1 ≥ a.tokenMax then
    let add := if a.tokenMax < 8 then 8 else a.tokenMax
    a.tokens ++ (List.range' a.tokenMax add).map junk
  else a.tokens

theorem grow_prefix (junk : ℕ → Token) (a : TokenArray) : a.tokens <+: a.grow junk := by
  unfold grow
  by_cases hfull : a.tokenCur+1 ≥ a.tokenMax
  · rw [if_pos hfull]
    exact List.prefix_append _ _
  · rw [if_neg hfull]

theorem lt_length_grow (junk : ℕ → Token) (a : TokenArray) : a.tokenCur < (a.grow junk).length := by
  have hfits := a.fits
  unfold grow tokenMax
  by_cases hfull : a.tokenCur+1 ≥ a.tokens.length
  · rw [if_pos hfull]
    simp only [List.length_append,List.length_map,List.length_range']
    split_ifs <;> omega
  · rw [if_neg hfull]
    omega

def addToken (junk : ℕ → Token) (a : TokenArray) (t : Token) : TokenArray where
  tokens := (a.grow junk).set a.tokenCur t
  tokenCur := a.tokenCur+1
  fits := by
    rw [List.length_set]
    exact a.lt_length_grow junk

/-- A token is added behind those that are there, also where the buffer moves. -/
theorem added_addToken (junk : ℕ → Token) (a : TokenArray) (t : Token) :
    (a.addToken junk t).added = a.added ++ [t] := by
  have hlt := a.lt_length_grow junk
  have hold : (a.grow junk).take a.tokenCur = a.tokens.take a.tokenCur := by
    obtain ⟨new,hnew⟩ := a.grow_prefix junk
    rw [← hnew,List.take_append_of_le_length a.fits]
  have hset : a.tokenCur < ((a.grow junk).set a.tokenCur t).length := by rwa [List.length_set]
  change ((a.grow junk).set a.tokenCur t).take (a.tokenCur+1) = a.tokens.take a.tokenCur ++ [t]
  rw [List.take_succ_eq_append_getElem hset,List.getElem_set_self,List.take_set_of_le le_rfl,hold]

end TokenArray

/-- The loop of `sort_token` with the array that it adds to: the array and the marked tokens. -/
def sortTokenLoop (junk : ℕ → Token) : ℕ → TokenArray → List KeyToken → ℕ → ℕ → TokenArray × List KeyToken
  | 0, a, ts, _, _ => (a,ts)
  | n+1, a, ts, start, stop =>
    let idx := (findSmallest ts (stop-start) start (.unset,0)).2
    let t := ts.getD idx {}
    sortTokenLoop junk n (a.addToken junk (.key t)) (ts.set idx { t with type := .unset })
      (if idx = start then start+1 else start) (if idx+1 = stop then stop-1 else stop)

/-- `sort_token` for the tokens `ts` of a rule. -/
def sortTokenInto (junk : ℕ → Token) (a : TokenArray) (ts : List KeyToken) : TokenArray :=
  (sortTokenLoop junk ts.length a ts 0 ts.length).1

theorem sortTokenLoop_added (junk : ℕ → Token) (n : ℕ) (a : TokenArray) (ts : List KeyToken) (start stop : ℕ) :
    (sortTokenLoop junk n a ts start stop).1.added = a.added ++ (sortLoop n ts start stop).map .key := by
  induction n generalizing a ts start stop with
  | zero => simp [sortTokenLoop,sortLoop]
  | succ n ih =>
    simp only [sortTokenLoop,sortLoop]
    rw [ih,TokenArray.added_addToken,List.append_assoc,List.map_cons,List.singleton_append]

/-- The tokens of a rule come behind those of the array, each once, in the order of their types
and those of one type in their own order. -/
theorem sort_token_appends (junk : ℕ → Token) (a : TokenArray) (ts : List KeyToken)
    (h : ∀ t ∈ ts, t.type ≠ .unset) :
    ∃ out : List KeyToken, (sortTokenInto junk a ts).added = a.added ++ out.map .key ∧ out ~ ts ∧
      out.Pairwise (fun s t => s.type.code ≤ t.type.code) ∧
      ∀ type, out.filter (·.type = type) = ts.filter (·.type = type) := by
  have hsorts := sortToken_sorts ts h
  refine ⟨sortToken ts,sortTokenLoop_added junk ts.length a ts 0 ts.length,hsorts.perm,hsorts.sorted,fun type => ?_⟩
  have hcode : ∀ t : KeyToken, t.type = type ↔ t.type.code = type.code := fun t => TokenType.code_injective.eq_iff.symm
  simp only [hcode]
  exact hsorts.stable type.code

/-- Three tokens behind a full array of one. -/
theorem sort_token_appends_three :
    ∃ out : List KeyToken,
      (sortTokenInto (fun _ => .tkEnd) ⟨[.rule {}],1,le_rfl⟩
        [{ type := .aRunProgram },{ type := .mKernel },{ type := .aEnv }]).added = [.rule {}] ++ out.map .key ∧
      out ~ [{ type := .aRunProgram },{ type := .mKernel },{ type := .aEnv }] ∧
      out.Pairwise (fun s t => s.type.code ≤ t.type.code) ∧
      ∀ type, out.filter (·.type = type) =
        [{ type := .aRunProgram },{ type := .mKernel },{ type := .aEnv }].filter (·.type = type) :=
  sort_token_appends _ ⟨[.rule {}],1,le_rfl⟩ _ (by decide)

end Rules
end Udev
