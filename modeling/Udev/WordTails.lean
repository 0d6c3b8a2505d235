import Mathlib.Data.List.Basic
import Mathlib.Data.List.Infix
import Mathlib.Data.List.TakeWhile

/-! The words of a text between separators, each with everything behind it. -/
namespace Udev
namespace WordTails

variable {α : Type*} (p : α → Bool)

/-- What follows the begin of each word; the flag says that a word may begin. -/
def tailsFrom : Bool → List α → List (List α)
  | _, [] => []
  | start, c::cs =>
    if p c then tailsFrom true cs else if start then (c::cs)::tailsFrom false cs else tailsFrom false cs

def wordTails (s : List α) : List (List α) := tailsFrom p true s

def words (s : List α) : List (List α) := (s.splitOnP p).filter (!·.isEmpty)

variable {p}

theorem tailsFrom_false (s : List α) : tailsFrom p false s = wordTails p (s.dropWhile (!p ·)) := by
  induction s with
  | nil => rfl
  | cons c s ih =>
    cases hc : p c with
    | false => simp [tailsFrom,hc,ih]
    | true => simp [tailsFrom,wordTails,hc]

theorem wordTails_cons_sep {c : α} (hc : p c = true) (s : List α) : wordTails p (c::s) = wordTails p s :=
  if_pos hc

theorem wordTails_cons {c : α} (hc : p c = false) (s : List α) :
    wordTails p (c::s) = (c::s)::wordTails p (s.dropWhile (!p ·)) := by
  rw [← tailsFrom_false]
  simp [wordTails,tailsFrom,hc]

theorem wordTails_dropWhile (s : List α) : wordTails p (s.dropWhile p) = wordTails p s := by
  induction s with
  | nil => rfl
  | cons c s ih =>
    cases hc : p c with
    | false => rw [List.dropWhile_cons_of_neg (by simp [hc])]
    | true => rw [List.dropWhile_cons_of_pos hc,ih,wordTails_cons_sep hc]

theorem splitOnP_word (s : List α) :
    ∃ ws, s.splitOnP p = s.takeWhile (!p ·)::ws ∧ words p (s.dropWhile (!p ·)) = ws.filter (!·.isEmpty) := by
  induction s with
  | nil => exact ⟨[],rfl,rfl⟩
  | cons c s ih =>
    obtain ⟨ws,hsplit,hrest⟩ := ih
    rw [List.splitOnP_cons_eq_if_modifyHead]
    cases hc : p c with
    | false =>
      refine ⟨ws,?_,?_⟩
      · simp [hsplit,hc]
      · simpa [hc] using hrest
    | true =>
      refine ⟨s.splitOnP p,?_,?_⟩
      · simp [hc]
      · rw [List.dropWhile_cons_of_neg (by simp [hc]),words,List.splitOnP_cons_eq_if_modifyHead,if_pos hc]
        rfl

theorem map_wordTails (s : List α) : (wordTails p s).map (·.takeWhile (!p ·)) = words p s := by
  induction hn : s.length using Nat.strong_induction_on generalizing s with
  | _ n ih =>
    cases s with
    | nil => rfl
    | cons c s =>
      cases hc : p c with
      | true =>
        rw [wordTails_cons_sep hc,ih s.length (hn ▸ Nat.lt_succ_self _) s rfl,words,words,
          List.splitOnP_cons_eq_if_modifyHead,if_pos hc]
        rfl
      | false =>
        obtain ⟨ws,hsplit,hrest⟩ := splitOnP_word (p := p) s
        have hlen : (s.dropWhile (!p ·)).length < n :=
          hn ▸ Nat.lt_succ_of_le (List.length_dropWhile_le ..)
        rw [wordTails_cons hc,List.map_cons,ih _ hlen _ rfl,hrest,words,
          List.splitOnP_cons_eq_if_modifyHead,if_neg (by simp [hc]),hsplit]
        simp [hc]

theorem mem_tailsFrom {start : Bool} {s u : List α} (h : u ∈ tailsFrom p start s) :
    u <:+ s ∧ ∃ c cs, u = c::cs ∧ p c = false := by
  induction s generalizing start with
  | nil => exact absurd h List.not_mem_nil
  | cons c s ih =>
    have hrest : ∀ {start}, u ∈ tailsFrom p start s → u <:+ c::s ∧ ∃ c cs, u = c::cs ∧ p c = false :=
      fun hu => ⟨(ih hu).1.trans (List.suffix_cons c s),(ih hu).2⟩
    rw [tailsFrom] at h
    split_ifs at h with hc hstart
    · exact hrest h
    · rcases List.mem_cons.mp h with rfl | h
      · exact ⟨List.suffix_refl _,c,s,rfl,Bool.eq_false_iff.mpr hc⟩
      · exact hrest h
    · exact hrest h

theorem tailsFrom_length (start : Bool) (s : List α) : (tailsFrom p start s).length ≤ s.length := by
  induction s generalizing start with
  | nil => exact le_rfl
  | cons c s ih =>
    rw [tailsFrom]
    split_ifs
    · exact (ih true).trans (Nat.le_succ _)
    · exact Nat.succ_le_succ (ih false)
    · exact (ih false).trans (Nat.le_succ _)

theorem tailsFrom_take (start : Bool) (s : List α) (n k : ℕ) :
    (tailsFrom p start (s.take n))[k]? =
      (tailsFrom p start s)[k]?.bind fun u =>
        if s.length < u.length+n then some (u.take (u.length+n-s.length)) else none := by
  induction s generalizing start n k with
  | nil => simp [tailsFrom]
  | cons c s ih =>
    cases n with
    | zero =>
      rw [List.take_zero,tailsFrom,List.getElem?_nil,eq_comm,Option.bind_eq_none_iff]
      intro u hu
      have hle := (mem_tailsFrom (List.mem_of_getElem? hu)).1.length_le
      rw [if_neg (by omega)]
    | succ n =>
      have hshift : ∀ u : List α,
          (if (c::s).length < u.length+(n+1) then some (u.take (u.length+(n+1)-(c::s).length)) else none) =
            if s.length < u.length+n then some (u.take (u.length+n-s.length)) else none := fun u => by
        have hsub : u.length+(n+1)-(c::s).length = u.length+n-s.length := by
          rw [List.length_cons]
          omega
        rw [hsub]
        refine if_congr ?_ rfl rfl
        rw [List.length_cons]
        omega
      simp only [hshift]
      rw [List.take_succ_cons,tailsFrom,tailsFrom]
      split_ifs
      · exact ih true n k
      · cases k with
        | zero =>
          have hlt : s.length < (c::s).length+n := by
            rw [List.length_cons]
            omega
          have hsub : (c::s).length+n-s.length = n+1 := by
            rw [List.length_cons]
            omega
          rw [List.getElem?_cons_zero,List.getElem?_cons_zero,Option.bind_some,if_pos hlt,hsub,List.take_succ_cons]
        | succ k => exact ih false n k
      · exact ih false n k

end WordTails
end Udev
