import Udev.Bisect
import Udev.Device

/-! A unique list of libudev is sorted by name, each name once. Adding keeps this, and
adding the entries of a sorted list one by one gives the list again. -/
namespace Udev
namespace UdevList

def Sorted (l : UdevList) : Prop := l.Pairwise (·.name < ·.name)

variable {l : UdevList} {name : CString} {value : Option CString}

theorem Sorted.nodup_names (h : l.Sorted) : (l.map (·.name)).Nodup := by
  refine List.pairwise_map.mpr (h.imp ?_)
  intro a b hlt heq
  rw [heq] at hlt
  exact List.lt_irrefl _ hlt

theorem mem_add_name {n : CString} : n ∈ (l.add name value).map (·.name) ↔ n = name ∨ n ∈ l.map (·.name) := by
  induction l with
  | nil => simp [UdevList.add]
  | cons e es ih =>
    simp only [UdevList.add]
    split_ifs with h₁ h₂
    · simp [h₁]
    · simp
    · simp only [List.map_cons,List.mem_cons,ih]
      exact or_left_comm

theorem Sorted.add (h : l.Sorted) (name : CString) (value : Option CString) : (l.add name value).Sorted := by
  unfold Sorted at h ⊢
  induction l with
  | nil => simp [UdevList.add]
  | cons e es ih =>
    obtain ⟨he,hes⟩ := List.pairwise_cons.mp h
    simp only [UdevList.add]
    split_ifs with h₁ h₂
    · exact List.pairwise_cons.mpr ⟨he,hes⟩
    · refine List.pairwise_cons.mpr ⟨?_,h⟩
      intro x hx
      rcases List.mem_cons.mp hx with rfl | hx
      · exact h₂
      · exact List.lt_trans h₂ (he x hx)
    · refine List.pairwise_cons.mpr ⟨?_,ih hes⟩
      intro x hx
      rcases mem_add_name.mp (List.mem_map_of_mem hx) with heq | hmem
      · rw [heq]
        exact Std.lt_of_le_of_ne h₂ h₁
      · obtain ⟨y,hy,hname⟩ := List.mem_map.mp hmem
        rw [← hname]
        exact he y hy

theorem Sorted.setNum (h : l.Sorted) (name : CString) (num : ℤ) : (l.setNum name num).Sorted := by
  unfold Sorted UdevList.setNum at *
  rw [List.pairwise_map]
  refine h.imp ?_
  intro a b hab
  split_ifs <;> exact hab

theorem Sorted.delete (h : l.Sorted) (name : CString) : (l.delete name).Sorted := List.Pairwise.filter _ h

theorem Sorted.filter (h : l.Sorted) (p : ListEntry → Bool) : Sorted (List.filter p l) := List.Pairwise.filter _ h

/-- An entry of the name has the new value, and the others are as before. -/
theorem Sorted.mem_add (h : l.Sorted) {e : ListEntry} :
    e ∈ l.add name value ↔
      e = ⟨name,value,(l.getByName name).elim 0 (·.num)⟩ ∨ e ∈ l ∧ e.name ≠ name := by
  induction l with
  | nil => simp [UdevList.add,getByName]
  | cons x xs ih =>
    obtain ⟨hx,hxs⟩ := List.pairwise_cons.mp h
    have hrest : ∀ n : CString, x.name = n ∨ n < x.name → ∀ y ∈ xs, y.name ≠ n := by
      rintro n hn y hy rfl
      have hlt := hx y hy
      rcases hn with hn | hn
      · rw [hn] at hlt
        exact List.lt_irrefl _ hlt
      · exact List.lt_irrefl _ (List.lt_trans hlt hn)
    simp only [UdevList.add]
    split_ifs with h₁ h₂
    · have hxs' := hrest name (Or.inl h₁)
      simp only [getByName,List.find?_cons,h₁,decide_true,Option.elim_some,List.mem_cons]
      constructor
      · rintro (rfl | he)
        · exact Or.inl (by rw [← h₁])
        · exact Or.inr ⟨Or.inr he,hxs' e he⟩
      · rintro (rfl | ⟨rfl | he,hne⟩)
        · exact Or.inl (by rw [← h₁])
        · exact absurd h₁ hne
        · exact Or.inr he
    · have hxs' := hrest name (Or.inr h₂)
      have hnone : getByName (x::xs) name = none := by
        simp only [getByName,List.find?_eq_none,List.mem_cons]
        rintro y (rfl | hy)
        · simpa using h₁
        · simpa using hxs' y hy
      simp only [hnone,Option.elim_none,List.mem_cons]
      constructor
      · rintro (rfl | rfl | he)
        · exact Or.inl rfl
        · exact Or.inr ⟨Or.inl rfl,h₁⟩
        · exact Or.inr ⟨Or.inr he,hxs' e he⟩
      · rintro (rfl | ⟨he,-⟩)
        · exact Or.inl rfl
        · exact Or.inr he
    · have hget : getByName (x::xs) name = getByName xs name := List.find?_cons_of_neg (by simpa using h₁)
      rw [List.mem_cons,ih hxs,hget,List.mem_cons]
      constructor
      · rintro (rfl | rfl | ⟨he,hne⟩)
        · exact Or.inr ⟨Or.inl rfl,h₁⟩
        · exact Or.inl rfl
        · exact Or.inr ⟨Or.inr he,hne⟩
      · rintro (rfl | ⟨rfl | he,hne⟩)
        · exact Or.inr (Or.inl rfl)
        · exact Or.inl rfl
        · exact Or.inr (Or.inr ⟨he,hne⟩)

theorem add_last (h : ∀ x ∈ l, x.name < name) : l.add name value = l ++ [⟨name,value,0⟩] := by
  induction l with
  | nil => rfl
  | cons x xs ih =>
    have hx := h x List.mem_cons_self
    have hne : x.name ≠ name := fun heq => List.lt_irrefl _ (heq ▸ hx)
    rw [UdevList.add,if_neg hne,if_neg (List.lt_asymm hx),ih fun y hy => h y (List.mem_cons_of_mem _ hy)]
    rfl

/-- The names of a sorted list, added one by one, are in the same order again. -/
theorem Sorted.foldl_add (h : l.Sorted) :
    l.foldl (fun (acc : UdevList) e => acc.add e.name none) [] = l.map fun e => (⟨e.name,none,0⟩ : ListEntry) := by
  induction l using List.reverseRecOn with
  | nil => rfl
  | append_singleton l e ih =>
    obtain ⟨hl,-,hlt⟩ := List.pairwise_append.mp h
    rw [List.foldl_append,ih hl,List.foldl_cons,List.foldl_nil,List.map_append]
    refine add_last ?_
    intro x hx
    obtain ⟨y,hy,rfl⟩ := List.mem_map.mp hx
    exact hlt y hy e List.mem_cons_self

theorem Sorted.mem_setNum_add (h : l.Sorted) {num : ℤ} {e : ListEntry} :
    e ∈ (l.add name value).setNum name num ↔ e = ⟨name,value,num⟩ ∨ e ∈ l ∧ e.name ≠ name := by
  rw [UdevList.setNum,List.mem_map]
  constructor
  · rintro ⟨x,hx,rfl⟩
    rcases h.mem_add.mp hx with rfl | ⟨hx,hne⟩
    · simp
    · rw [if_neg hne]
      exact Or.inr ⟨hx,hne⟩
  · rintro (rfl | ⟨he,hne⟩)
    · exact ⟨_,h.mem_add.mpr (Or.inl rfl),by simp⟩
    · exact ⟨e,h.mem_add.mpr (Or.inr ⟨he,hne⟩),if_neg hne⟩

section Split

variable {l' : UdevList} {e : ListEntry}

theorem add_before (hl : ∀ x ∈ l, x.name < name) : (l ++ l').add name value = l ++ l'.add name value := by
  induction l with
  | nil => rfl
  | cons x l ih =>
    have hx := hl x List.mem_cons_self
    have hne : x.name ≠ name := fun heq => List.lt_irrefl _ (heq ▸ hx)
    rw [List.cons_append,UdevList.add,if_neg hne,if_neg (List.lt_asymm hx),
      ih fun y hy => hl y (List.mem_cons_of_mem _ hy)]
    rfl

theorem add_found (he : e.name = name) (hl : ∀ x ∈ l, x.name < name) :
    (l ++ e::l').add name value = l ++ { e with value := value }::l' := by
  rw [add_before hl,UdevList.add,if_pos he]

theorem add_place (hl : ∀ x ∈ l, x.name < name) (hl' : ∀ x ∈ l', name < x.name) :
    (l ++ l').add name value = l ++ ⟨name,value,0⟩::l' := by
  rw [add_before hl]
  cases l' with
  | nil => rfl
  | cons x l' =>
    have hx := hl' x List.mem_cons_self
    have hne : x.name ≠ name := fun heq => List.lt_irrefl _ (heq ▸ hx)
    rw [UdevList.add,if_neg hne,if_pos hx]

theorem delete_other (h : ∀ x ∈ l, x.name ≠ name) : l.delete name = l :=
  List.filter_eq_self.mpr fun x hx => by simpa using h x hx

theorem setNum_other (h : ∀ x ∈ l, x.name ≠ name) (num : ℤ) : l.setNum name num = l :=
  (List.map_congr_left fun x hx => if_neg (h x hx)).trans (List.map_id _)

theorem getByName_other (h : ∀ x ∈ l, x.name ≠ name) : l.getByName name = none :=
  List.find?_eq_none.mpr fun x hx => by simpa using h x hx

theorem ne_of_lt (h : ∀ x ∈ l, x.name < name) : ∀ x ∈ l, x.name ≠ name := by
  intro x hx heq
  exact List.lt_irrefl _ (heq ▸ h x hx)

theorem ne_of_gt (h : ∀ x ∈ l, name < x.name) : ∀ x ∈ l, x.name ≠ name := by
  intro x hx heq
  exact List.lt_irrefl _ (heq ▸ h x hx)

theorem delete_found (he : e.name = name) (h : ∀ x ∈ l, x.name ≠ name) (h' : ∀ x ∈ l', x.name ≠ name) :
    delete (l ++ e::l') name = l ++ l' := by
  have hl := delete_other h
  have hl' := delete_other h'
  unfold delete at *
  rw [List.filter_append,hl,List.filter_cons_of_neg (by simpa using he),hl']

theorem setNum_found (he : e.name = name) (h : ∀ x ∈ l, x.name ≠ name) (h' : ∀ x ∈ l', x.name ≠ name) (num : ℤ) :
    setNum (l ++ e::l') name num = l ++ { e with num := num }::l' := by
  have hl := setNum_other h num
  have hl' := setNum_other h' num
  unfold setNum at *
  rw [List.map_append,hl,List.map_cons,if_pos he,hl']

theorem getByName_found (he : e.name = name) (h : ∀ x ∈ l, x.name ≠ name) :
    getByName (l ++ e::l') name = some e := by
  have hl := getByName_other h
  unfold getByName at *
  rw [List.find?_append,hl,List.find?_cons_of_pos (by simpa using he)]
  rfl

end Split

/-- A name is that of one entry of a sorted list, or it has a place in it. -/
theorem Sorted.split (h : l.Sorted) (name : CString) :
    (∃ (p : UdevList) (e : ListEntry) (q : UdevList),
        l = p ++ e::q ∧ e.name = name ∧ (∀ x ∈ p, x.name < name) ∧ ∀ x ∈ q, name < x.name) ∨
      ∃ p q : UdevList, l = p ++ q ∧ (∀ x ∈ p, x.name < name) ∧ ∀ x ∈ q, name < x.name :=
  Bisect.sorted_split h name

theorem Sorted.getByName_add (h : l.Sorted) :
    (l.add name value).getByName name = some ⟨name,value,(l.getByName name).elim 0 (·.num)⟩ := by
  rcases h.split name with ⟨p,e,q,rfl,rfl,hp,-⟩ | ⟨p,q,rfl,hp,hq⟩
  · have hget : (p ++ e::q).getByName e.name = some e := getByName_found rfl (ne_of_lt hp)
    rw [add_found rfl hp,hget,Option.elim_some]
    exact getByName_found rfl (ne_of_lt hp)
  · have hother : ∀ x ∈ p ++ q, x.name ≠ name := by
      intro x hx
      exact (List.mem_append.mp hx).elim (ne_of_lt hp x) (ne_of_gt hq x)
    rw [add_place hp hq,getByName_other hother,Option.elim_none]
    exact getByName_found rfl (ne_of_lt hp)

theorem getByName_delete (l : UdevList) (name : CString) : (l.delete name).getByName name = none := by
  refine getByName_other ?_
  intro x hx
  simpa using (List.mem_filter.mp hx).2

theorem getByName_setNum (l : UdevList) (name : CString) (num : ℤ) :
    (l.setNum name num).getByName name = (l.getByName name).map fun e => { e with num := num } := by
  induction l with
  | nil => rfl
  | cons x l ih =>
    unfold getByName setNum at *
    rw [List.map_cons]
    by_cases hx : x.name = name
    · rw [if_pos hx,List.find?_cons_of_pos (by simpa using hx),List.find?_cons_of_pos (by simpa using hx),Option.map_some]
    · rw [if_neg hx,List.find?_cons_of_neg (by simpa using hx),List.find?_cons_of_neg (by simpa using hx),ih]

theorem Sorted.ext {l' : UdevList} (h : l.Sorted) (h' : l'.Sorted) (hmem : ∀ e, e ∈ l ↔ e ∈ l') : l = l' := by
  have hperm : l.Perm l' := (List.perm_ext_iff_of_nodup (h.imp ?_) (h'.imp ?_)).mpr hmem
  · refine hperm.eq_of_pairwise ?_ h h'
    intro a b _ _ hab hba
    exact absurd (List.lt_trans hab hba) (List.lt_irrefl _)
  all_goals
    rintro a b hab rfl
    exact List.lt_irrefl _ hab

end UdevList
end Udev
