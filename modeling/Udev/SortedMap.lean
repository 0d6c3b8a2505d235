import Mathlib.Data.List.Basic

/-! Arrays of entries with a key, sorted by the key. A binary search in such an array finds
the entry of the key; a new entry that is appended goes to its place when the array is
sorted again. -/
namespace Udev
namespace SortedMap

variable {κ β : Type*}

section Get

variable [DecidableEq κ]

/-- `bsearch`. -/
def get (l : List (κ × β)) (k : κ) : Option β := (l.find? (·.1 = k)).map (·.2)

def set (l : List (κ × β)) (k : κ) (v : β) : List (κ × β) := l.map fun e => if e.1 = k then (k,v) else e

variable {l : List (κ × β)} {k k' : κ} {v : β}

@[simp] theorem get_nil (k : κ) : get ([] : List (κ × β)) k = none := rfl

theorem get_cons (e : κ × β) (l : List (κ × β)) (k : κ) :
    get (e::l) k = if e.1 = k then some e.2 else get l k := by
  by_cases he : e.1 = k
  · simp [get,he]
  · simp [get,he]

theorem mem_of_get (h : get l k = some v) : (k,v) ∈ l := by
  obtain ⟨e,he,rfl⟩ := Option.map_eq_some_iff.mp h
  have hkey : e.1 = k := by simpa using List.find?_some he
  exact hkey ▸ List.mem_of_find?_eq_some he

theorem get_eq_none : get l k = none ↔ ∀ e ∈ l, e.1 ≠ k := by simp [get]

theorem set_cons (e : κ × β) (l : List (κ × β)) (k : κ) (v : β) :
    set (e::l) k v = (if e.1 = k then (k,v) else e)::set l k v := rfl

theorem get_set_ne (v : β) (h : k ≠ k') : get (set l k v) k' = get l k' := by
  induction l with
  | nil => rfl
  | cons e l ih =>
    rw [set_cons,get_cons,get_cons,ih]
    by_cases he : e.1 = k
    · rw [if_pos he,if_neg h,if_neg (he ▸ h)]
    · rw [if_neg he]

theorem get_set_self (h : (get l k).isSome) (v : β) : get (set l k v) k = some v := by
  induction l with
  | nil => cases h
  | cons e l ih =>
    rw [set_cons,get_cons]
    by_cases he : e.1 = k
    · rw [if_pos he,if_pos rfl]
    · rw [get_cons,if_neg he] at h
      rw [if_neg he,if_neg he,ih h]

theorem get_set (h : (get l k).isSome) (v : β) (k' : κ) :
    get (set l k v) k' = if k = k' then some v else get l k' := by
  by_cases hk : k = k'
  · rw [if_pos hk,← hk,get_set_self h]
  · rw [if_neg hk,get_set_ne v hk]

theorem mem_set {e : κ × β} (h : e ∈ set l k v) : e = (k,v) ∨ e ∈ l := by
  obtain ⟨x,hx,rfl⟩ := List.mem_map.mp h
  split_ifs
  · exact Or.inl rfl
  · exact Or.inr hx

end Get

theorem get_zip [DecidableEq κ] {γ : Type*} {es : List (κ × β)} {ch : List (κ × γ)} (hlen : es.length = ch.length)
    (hkey : ∀ p ∈ es.zip ch, p.1.1 = p.2.1) (k : κ) :
    get es k = none ∧ get ch k = none ∨ ∃ p ∈ es.zip ch, get es k = some p.1.2 ∧ get ch k = some p.2.2 := by
  induction es generalizing ch with
  | nil =>
    rw [List.length_eq_zero_iff.mp hlen.symm]
    exact Or.inl ⟨rfl,rfl⟩
  | cons e es ih =>
    cases ch with
    | nil => cases hlen
    | cons x ch =>
      have hhead : (e,x) ∈ (e::es).zip (x::ch) := List.mem_cons_self
      have hkeys : e.1 = x.1 := hkey _ hhead
      rw [get_cons,get_cons,← hkeys]
      by_cases hk : e.1 = k
      · rw [if_pos hk,if_pos hk]
        exact Or.inr ⟨_,hhead,rfl,rfl⟩
      · rw [if_neg hk,if_neg hk]
        rcases ih (Nat.succ.inj hlen) (fun p hp => hkey p (List.mem_cons_of_mem _ hp)) with h | ⟨p,hp,h⟩
        · exact Or.inl h
        · exact Or.inr ⟨p,List.mem_cons_of_mem _ hp,h⟩

section Insert

variable [LT κ] [DecidableLT κ]

/-- Append an entry with a new key and sort. -/
def insert (k : κ) (v : β) : List (κ × β) → List (κ × β)
  | [] => [(k,v)]
  | e::es => if k < e.1 then (k,v)::e::es else e::insert k v es

theorem mem_insert {l : List (κ × β)} {k : κ} {v : β} {e : κ × β} :
    e ∈ insert k v l ↔ e = (k,v) ∨ e ∈ l := by
  induction l with
  | nil => simp [insert]
  | cons x xs ih =>
    rw [insert]
    split_ifs
    · rw [List.mem_cons]
    · rw [List.mem_cons,ih,List.mem_cons]
      exact or_left_comm

theorem length_insert (k : κ) (v : β) (l : List (κ × β)) : (insert k v l).length = l.length+1 := by
  induction l with
  | nil => rfl
  | cons x xs ih =>
    rw [insert]
    split_ifs
    · rfl
    · rw [List.length_cons,ih,List.length_cons]

theorem get_insert [DecidableEq κ] {l : List (κ × β)} {k : κ} (h : get l k = none) (v : β) (k' : κ) :
    get (insert k v l) k' = if k = k' then some v else get l k' := by
  induction l with
  | nil => rw [insert,get_cons]
  | cons e es ih =>
    rw [get_eq_none] at h
    have hes : get es k = none := get_eq_none.mpr fun x hx => h x (List.mem_cons_of_mem _ hx)
    by_cases hlt : k < e.1
    · rw [insert,if_pos hlt,get_cons]
    · rw [insert,if_neg hlt,get_cons,ih hes,get_cons]
      by_cases hk : k = k'
      · rw [if_neg (hk ▸ h e List.mem_cons_self),if_pos hk,if_pos hk]
      · rw [if_neg hk,if_neg hk]

end Insert

section MapValues

variable {γ : Type*} (g : β → γ)

def mapValues (l : List (κ × β)) : List (κ × γ) := l.map fun e => (e.1,g e.2)

theorem get_mapValues [DecidableEq κ] (l : List (κ × β)) (k : κ) : get (mapValues g l) k = (get l k).map g := by
  induction l with
  | nil => rfl
  | cons e l ih =>
    rw [mapValues,List.map_cons,get_cons,get_cons]
    split_ifs
    · rfl
    · exact ih

theorem mapValues_set [DecidableEq κ] (l : List (κ × β)) (k : κ) (v : β) :
    mapValues g (set l k v) = set (mapValues g l) k (g v) := by
  rw [mapValues,set,set,mapValues,List.map_map,List.map_map]
  refine List.map_congr_left ?_
  intro e _
  by_cases he : e.1 = k
  · simp [he]
  · simp [he]

theorem mapValues_insert [LT κ] [DecidableLT κ] (k : κ) (v : β) (l : List (κ × β)) :
    mapValues g (insert k v l) = insert k (g v) (mapValues g l) := by
  induction l with
  | nil => rfl
  | cons e l ih =>
    have hcons : mapValues g (e::l) = (e.1,g e.2)::mapValues g l := rfl
    rw [hcons,insert,insert]
    split_ifs
    · rfl
    · rw [← ih]
      rfl

end MapValues

section Sorted

variable [LT κ]

def Sorted (l : List (κ × β)) : Prop := l.Pairwise (·.1 < ·.1)

variable [DecidableEq κ] {l l' : List (κ × β)} {k : κ} {v : β}

theorem Sorted.set (h : Sorted l) (k : κ) (v : β) : Sorted (set l k v) := by
  have hkey : ∀ e : κ × β, (if e.1 = k then (k,v) else e).1 = e.1 := by
    intro e
    split_ifs with he
    · exact he.symm
    · rfl
  refine List.pairwise_map.mpr (h.imp ?_)
  intro a b hab
  rw [hkey a,hkey b]
  exact hab

variable [LE κ] [Std.LawfulOrderLT κ]

theorem Sorted.get_of_mem (h : Sorted l) (hmem : (k,v) ∈ l) : get l k = some v := by
  induction l with
  | nil => cases hmem
  | cons e es ih =>
    obtain ⟨he,hes⟩ := List.pairwise_cons.mp h
    rw [get_cons]
    rcases List.mem_cons.mp hmem with rfl | hmem
    · exact if_pos rfl
    · have hne : e.1 ≠ k := Std.ne_of_lt (he _ hmem)
      rw [if_neg hne,ih hes hmem]

variable [Std.IsLinearOrder κ]

theorem Sorted.insert [DecidableLT κ] (h : Sorted l) (hk : get l k = none) (v : β) : Sorted (insert k v l) := by
  induction l with
  | nil => exact List.pairwise_singleton _ _
  | cons e es ih =>
    obtain ⟨he,hes⟩ := List.pairwise_cons.mp h
    rw [get_eq_none] at hk
    rw [SortedMap.insert]
    split_ifs with hlt
    · refine List.pairwise_cons.mpr ⟨?_,h⟩
      intro x hx
      rcases List.mem_cons.mp hx with rfl | hx
      · exact hlt
      · exact Std.lt_trans hlt (he x hx)
    · refine List.pairwise_cons.mpr ⟨?_,ih hes (get_eq_none.mpr fun x hx => hk x (List.mem_cons_of_mem _ hx))⟩
      intro x hx
      rcases mem_insert.mp hx with rfl | hx
      · exact Std.lt_of_le_of_ne (Std.not_lt.mp hlt) (hk e List.mem_cons_self)
      · exact he x hx

omit [DecidableEq κ] [Std.IsLinearOrder κ] in
theorem Sorted.nodup (h : Sorted l) : l.Nodup := by
  refine h.imp ?_
  rintro a b hab rfl
  exact Std.lt_irrefl hab

theorem Sorted.ext (h : Sorted l) (h' : Sorted l') (hget : ∀ k, get l k = get l' k) : l = l' := by
  have hmem : ∀ e, e ∈ l ↔ e ∈ l' := by
    intro e
    constructor
    · intro he
      exact mem_of_get ((hget e.1).symm.trans (h.get_of_mem he))
    · intro he
      exact mem_of_get ((hget e.1).trans (h'.get_of_mem he))
  have hperm : l.Perm l' := (List.perm_ext_iff_of_nodup h.nodup h'.nodup).mpr hmem
  refine hperm.eq_of_pairwise ?_ h h'
  intro a b _ _ hab hba
  exact absurd (Std.lt_trans hab hba) Std.lt_irrefl

end Sorted

end SortedMap
end Udev
