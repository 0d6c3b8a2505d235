import Udev.AddRule
import Udev.RoundTrip

/-! How far the loop of `add_rule` reads a line: it goes on until `get_key` fails, at the end of the
line or in the middle of it. -/
namespace Udev
namespace Rules

open CString RuleLine RoundTrip

def restAfter : ℕ → CString → CString
  | 0, line => line
  | n+1, line =>
    match nextPair line with
    | none => line
    | some (_,rest) => restAfter n rest

def lineRest (line : CString) : CString := restAfter line.length line

/-- Only blanks are left before the newline: otherwise the message about an invalid key/value
pair is printed. -/
def Whole (line : CString) : Prop := charAt ((lineRest line).dropWhile isblank) 0 = chr '\n'

instance (line : CString) : Decidable (Whole line) := inferInstanceAs (Decidable (_ = _))

def pairOf (i : Item) : KeyPair := ⟨i.key,i.op,i.value⟩

theorem nextPair_item {i : Item} (hi : i.Readable) (hlast : i.value.getLast? ≠ some (chr '\\'))
    (rest : CString) : nextPair (i.print ++ rest) = some (pairOf i,rest) := by
  obtain ⟨mid,k,v,-,hget,hread⟩ := getKey_item i hi hlast [] rest
  obtain ⟨hkey,hvalue⟩ := hread rest
  have hget : getKey (i.print ++ rest) 0 = some _ := hget
  rw [nextPair,hget,Option.map_some,hkey,hvalue,List.drop_left]
  rfl

section Items

variable {items : List Item} {rest : CString}

theorem keyPairs_items (h : ∀ i ∈ items, i.Readable ∧ i.value.getLast? ≠ some (chr '\\'))
    (hrest : nextPair rest = none) {n : ℕ} (hn : items.length ≤ n) :
    keyPairs n (items.flatMap Item.print ++ rest) = items.map pairOf ∧
      restAfter n (items.flatMap Item.print ++ rest) = rest := by
  induction items generalizing n with
  | nil =>
    cases n with
    | zero => exact ⟨rfl,rfl⟩
    | succ n => simp [keyPairs,restAfter,hrest]
  | cons i items ih =>
    obtain ⟨n,rfl⟩ := Nat.exists_eq_succ_of_ne_zero (by simp at hn; omega : n ≠ 0)
    obtain ⟨hi,hlast⟩ := h i List.mem_cons_self
    have hrec := ih (fun j hj => h j (List.mem_cons_of_mem _ hj)) (by simpa using hn)
    have hsplit : (i::items).flatMap Item.print ++ rest = i.print ++ (items.flatMap Item.print ++ rest) := by simp
    rw [hsplit,keyPairs,restAfter,nextPair_item hi hlast]
    exact ⟨congrArg _ hrec.1,hrec.2⟩

theorem print_length_pos (i : Item) : 0 < i.print.length := by
  simp only [Item.print,List.length_append,List.length_cons]
  omega

theorem items_length_le (items : List Item) : items.length ≤ (items.flatMap Item.print).length := by
  induction items with
  | nil => exact Nat.zero_le _
  | cons i items ih =>
    have := print_length_pos i
    rw [List.flatMap_cons,List.length_append,List.length_cons]
    omega

/-- A line of printed items is read as their pairs, up to the text that is no item. -/
theorem linePairs_items (h : ∀ i ∈ items, i.Readable ∧ i.value.getLast? ≠ some (chr '\\'))
    (hrest : nextPair rest = none) :
    linePairs (items.flatMap Item.print ++ rest) = items.map pairOf ∧
      lineRest (items.flatMap Item.print ++ rest) = rest := by
  refine keyPairs_items h hrest ?_
  rw [List.length_append]
  exact (items_length_le items).trans (Nat.le_add_right _ _)

end Items

end Rules
end Udev
