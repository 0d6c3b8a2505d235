import Mathlib.Data.List.Infix
import Mathlib.Algebra.Order.Ring.Nat

/-! Files as lists of bytes: numbers in little-endian order, and records at their offsets. -/
namespace Udev
namespace Bytes

/-- A number in `w` bytes, the lowest first. -/
def le : ℕ → ℕ → List UInt8
  | 0, _ => []
  | w+1, n => UInt8.ofNat n::le w (n/256)

def ofLe : List UInt8 → ℕ
  | [] => 0
  | b::bs => b.toNat+256*ofLe bs

@[simp] theorem length_le (w n : ℕ) : (le w n).length = w := by
  induction w generalizing n with
  | zero => rfl
  | succ w ih => rw [le,List.length_cons,ih]

theorem ofLe_le {w n : ℕ} (h : n < 256^w) : ofLe (le w n) = n := by
  induction w generalizing n with
  | zero =>
    rw [pow_zero] at h
    rw [le,ofLe]
    omega
  | succ w ih =>
    have hdiv : n/256 < 256^w := Nat.div_lt_of_lt_mul (by rw [pow_succ] at h; omega)
    rw [le,ofLe,ih hdiv,UInt8.toNat_ofNat']
    omega

def Placed (map : List UInt8) (off : ℕ) (bytes : List UInt8) : Prop := bytes <+: map.drop off

section Placed

variable {map : List UInt8} {off : ℕ}

theorem placed_append {x y : List UInt8} :
    Placed map off (x ++ y) ↔ Placed map off x ∧ Placed map (off+x.length) y := by
  unfold Placed
  constructor
  · rintro ⟨t,ht⟩
    rw [List.append_assoc] at ht
    exact ⟨⟨y ++ t,ht⟩,⟨t,by rw [← List.drop_drop,← ht,List.drop_left]⟩⟩
  · rintro ⟨⟨t,ht⟩,hy⟩
    rw [← List.drop_drop,← ht,List.drop_left] at hy
    obtain ⟨u,rfl⟩ := hy
    exact ⟨u,by rw [List.append_assoc,ht]⟩

theorem Placed.length_le {bytes : List UInt8} (h : Placed map off bytes) (hne : bytes ≠ []) :
    off+bytes.length ≤ map.length := by
  have hlen := List.IsPrefix.length_le h
  have hpos := List.length_pos_of_ne_nil hne
  rw [List.length_drop] at hlen
  omega

theorem Placed.getElem? {b : UInt8} {bytes : List UInt8} (h : Placed map off (b::bytes)) : map[off]? = some b := by
  obtain ⟨t,ht⟩ := h
  have hget : (map.drop off)[0]? = some b := by rw [← ht]; rfl
  rwa [List.getElem?_drop,Nat.add_zero] at hget

/-- A number of `w` bytes at an offset, if it is in the file. -/
def readLe (w : ℕ) (map : List UInt8) (off : ℕ) : Option ℕ :=
  if off+w ≤ map.length then some (ofLe ((map.drop off).take w)) else none

theorem Placed.readLe {w n : ℕ} (h : Placed map off (le w n)) (hw : 0 < w) (hn : n < 256^w) :
    readLe w map off = some n := by
  have hne : le w n ≠ [] := List.ne_nil_of_length_pos (by rw [Bytes.length_le]; exact hw)
  have hle := h.length_le hne
  rw [Bytes.length_le] at hle
  obtain ⟨t,ht⟩ := h
  have htake : (map.drop off).take w = le w n := by
    rw [← ht,List.take_append_of_le_length (by simp),List.take_of_length_le (by simp)]
  rw [Bytes.readLe,if_pos hle,htake,ofLe_le hn]

end Placed

end Bytes
end Udev
