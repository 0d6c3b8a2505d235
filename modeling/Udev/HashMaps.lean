import Udev.HashResize

/-! The hash maps as ordered finite maps: what each call does to the finite maps, and how the memory represents them. -/
namespace Udev
namespace HashEntries

open LinkedChains Function

variable {M A K V Seed : Type*}

def Calls.setoid (c : Calls M A K Seed) : Setoid K := ⟨fun a b => c.compareFunc a b = 0,c.equivalence⟩

instance Calls.decidableKeys (c : Calls M A K Seed) : DecidableRel c.setoid.r := fun a b => inferInstanceAs (Decidable (c.compareFunc a b = 0))

/-- The finite maps, with their entries in the order in which these were last linked. -/
abbrev Maps (c : Calls M A K Seed) (V : Type*) := M → OrderedMap c.setoid V

section Spec

variable [DecidableEq M] {c : Calls M A K Seed} (s : Maps c V)

def specPut [DecidableEq V] (m : M) (key : K) (value : V) : Maps c V × ℤ :=
  ((s m).lookup key).elim (update s m ((s m).add key value),1) fun old => (s,if old = value then 0 else -EEXIST)

def specReplace [DecidableEq V] (m : M) (key : K) (value : V) : Maps c V × ℤ :=
  if (s m).contains key then (update s m ((s m).replace key value),0) else specPut s m key value

def specUpdate (m : M) (key : K) (value : V) : Maps c V × ℤ :=
  if (s m).contains key then (update s m ((s m).update key value),0) else (s,-ENOENT)

def specRemove (m : M) (key : K) : Maps c V × Option V := (update s m ((s m).erase key),(s m).lookup key)

def specRemoveAndPut (m : M) (oldKey newKey : K) (value : V) : Maps c V × ℤ :=
  if (s m).contains oldKey then
    if (s m).contains newKey then (s,-EEXIST) else (update s m (((s m).erase oldKey).add newKey value),0)
  else (s,-ENOENT)

def specRemoveAndReplace (m : M) (oldKey newKey : K) (value : V) : Maps c V × ℤ :=
  if (s m).contains oldKey then (update s m (((s m).erase oldKey).add newKey value),0) else (s,-ENOENT)

def specMove (m other : M) : Maps c V :=
  update (update s other ((s other).restrict (s m))) m ((s m).union (s other))

def specMoveOne (m other : M) (key : K) : Maps c V × ℤ :=
  if (s m).contains key then (s,-EEXIST)
  else ((s other).find key).elim (s,-ENOENT) fun p =>
    (update (update s other ((s other).erase key)) m ((s m).add p.1 p.2),0)

def specMerge (m other : M) : Maps c V × ℤ := (update s m ((s m).union (s other)),0)

def specStep [DecidableEq V] (s : Maps c V) : Op M K V → Maps c V × Result V
  | .put m key value => ((specPut s m key value).1,.code (specPut s m key value).2)
  | .replace m key value => ((specReplace s m key value).1,.code (specReplace s m key value).2)
  | .update m key value => ((specUpdate s m key value).1,.code (specUpdate s m key value).2)
  | .remove none _ => (s,.data none)
  | .remove (some m) key => ((specRemove s m key).1,.data (specRemove s m key).2)
  | .removeAndPut none _ _ _ => (s,.code (-ENOENT))
  | .removeAndPut (some m) oldKey newKey value =>
    ((specRemoveAndPut s m oldKey newKey value).1,.code (specRemoveAndPut s m oldKey newKey value).2)
  | .removeAndReplace none _ _ _ => (s,.code (-ENOENT))
  | .removeAndReplace (some m) oldKey newKey value =>
    ((specRemoveAndReplace s m oldKey newKey value).1,.code (specRemoveAndReplace s m oldKey newKey value).2)
  | .move _ none => (s,.unit)
  | .move m (some other) => (specMove s m other,.unit)
  | .moveOne _ none _ => (s,.code 0)
  | .moveOne m (some other) key => ((specMoveOne s m other key).1,.code (specMoveOne s m other key).2)
  | .merge _ none => (s,.code 0)
  | .merge m (some other) => ((specMerge s m other).1,.code (specMerge s m other).2)

def specRun [DecidableEq V] (s : Maps c V) : List (Op M K V) → Maps c V × List (Result V)
  | [] => (s,[])
  | op::ops => ((specRun (specStep s op).1 ops).1,(specStep s op).2::(specRun (specStep s op).1 ops).2)

section Walk

variable {s} {m other : M} {p : K × V} {ps qs : List (K × V)}

/-- After the first entry that is moved there is as much to move as before. -/
theorem specMove_step (hne : other ≠ m) (h : (s other).entries = ps ++ p::qs) (hps : ∀ q ∈ ps, (s m).contains q.1 = true)
    (habsent : (s m).find p.1 = none) :
    specMove (update (update s other ((s other).erase p.1)) m ((s m).add p.1 p.2)) m other = specMove s m other := by
  have hunion : ((s m).add p.1 p.2).union ((s other).erase p.1) = (s m).union (s other) := by
    refine OrderedMap.ext_entries ?_
    rw [← OrderedMap.union_add h hps habsent (Or.inr rfl),OrderedMap.union_entries,
      OrderedMap.erase_place h (c.equivalence.refl _)]
  rw [specMove,specMove,update_self,update_of_ne hne,update_self,hunion,OrderedMap.restrict_add h hps habsent]
  funext j
  by_cases hj : j = m
  · rw [hj,update_self,update_self]
  · by_cases hj' : j = other
    · rw [hj',update_of_ne hne,update_of_ne hne,update_self,update_self]
    · rw [update_of_ne hj,update_of_ne hj,update_of_ne hj',update_of_ne hj',update_of_ne hj,update_of_ne hj']

theorem specMerge_step (hne : other ≠ m) (h : (s other).entries = ps ++ p::qs) (hps : ∀ q ∈ ps, (s m).contains q.1 = true)
    (habsent : (s m).find p.1 = none) : specMerge (update s m ((s m).add p.1 p.2)) m other = specMerge s m other := by
  have hunion : ((s m).add p.1 p.2).union (s other) = (s m).union (s other) := by
    refine OrderedMap.ext_entries ?_
    rw [← OrderedMap.union_add h hps habsent (Or.inl rfl),OrderedMap.union_entries,h]
  rw [specMerge,specMerge,update_self,update_of_ne hne,hunion,update_idem]

end Walk

end Spec

/-- The memory holds the maps `s`, with the entries `order`. -/
structure Represents (c : Calls M A K Seed) (w : World M A K V Seed) (order : M → List A) (s : Maps c V) : Prop where
  shape : Shape c w order
  entries : ∀ m, (order m).map (entry w) = (s m).entries

section Represents

variable {c : Calls M A K Seed} {w w' : World M A K V Seed} {order order' : M → List A} {s s' : Maps c V} {m other : M} {e : A}
  {hash : ℕ} {k key : K} {value : V} {xs ys : List A}

theorem Represents.distinct (h : Represents c w order s) (m : M) : Distinct c w (order m) := by
  have hkeys := (s m).keys
  rw [← h.entries,List.pairwise_map] at hkeys
  exact hkeys

theorem Represents.place (h : Represents c w order s) (hm : order m = xs ++ e::ys) :
    (s m).entries = xs.map (entry w) ++ entry w e::ys.map (entry w) := by
  rw [← h.entries,hm,List.map_append,List.map_cons]

theorem Represents.apart (h : Represents c w order s) : Apart order := h.shape.1.iterate.apart

/-- The scan finds the entry of the key in the iteration list, if there is one. -/
theorem Represents.scan (h : Represents c w order s) (m : M) (key : K) :
    hashScan c w m (bucketHash c w m key) key = some none ∧ (s m).find key = none ∨
      ∃ e xs ys, hashScan c w m (bucketHash c w m key) key = some (some e) ∧ order m = xs ++ e::ys ∧
        c.compareFunc (w.key e) key = 0 := by
  rw [hashScan_eq h.shape (h.distinct m)]
  cases hfound : (order m).find? fun e => decide (c.compareFunc (w.key e) key = 0) with
  | none =>
    refine Or.inl ⟨rfl,OrderedMap.find_eq_none.mpr fun p hp hr => ?_⟩
    rw [← h.entries] at hp
    obtain ⟨x,hx,rfl⟩ := List.mem_map.mp hp
    exact List.find?_eq_none.mp hfound x hx (decide_eq_true hr)
  | some e =>
    obtain ⟨xs,ys,hm⟩ := List.append_of_mem (List.mem_of_find?_eq_some hfound)
    exact Or.inr ⟨e,xs,ys,rfl,hm,of_decide_eq_true (List.find?_some (p := fun e => decide (c.compareFunc (w.key e) key = 0)) hfound)⟩

theorem Represents.find_place (h : Represents c w order s) (hm : order m = xs ++ e::ys) (he : c.compareFunc (w.key e) key = 0) :
    (s m).find key = some (entry w e) := OrderedMap.find_place (h.place hm) he

theorem Represents.contains_place (h : Represents c w order s) (hm : order m = xs ++ e::ys) (he : c.compareFunc (w.key e) key = 0) :
    (s m).contains key = true := by
  rw [OrderedMap.contains,h.find_place hm he]
  rfl

/-- An entry that two states have in common is the same in both, where the maps are. -/
theorem Represents.entry_eq (h : Represents c w order s) (h' : Represents c w' order' s') (horder : order' m = order m)
    (hs : s' m = s m) : ∀ x ∈ order m, entry w' x = entry w x := by
  have hmap : (order m).map (entry w') = (order m).map (entry w) := by
    rw [h.entries,← hs,← h'.entries,horder]
  exact List.map_inj_left.mp hmap

theorem Represents.written [DecidableEq A] (h : Represents c w order s) (hnew : ∀ j, e ∉ order j) (key : K) (value : V) :
    Represents c (setEntry w e key value) order s where
  shape := h.shape.written (fun j hj => absurd hj (hnew j)) value
  entries := by
    intro j
    rw [← h.entries]
    refine List.map_congr_left fun x hx => ?_
    have hne : x ≠ e := by
      rintro rfl
      exact hnew j hx
    exact Prod.ext (update_of_ne hne _ _) (update_of_ne hne _ _)

theorem Represents.allocate [DecidableEq A] (h : Represents c w order s) (key : K) (value : V) :
    Represents c (newEntry c w key value).2 order s ∧ (∀ j, (newEntry c w key value).1 ∉ order j) := by
  have hnew : ∀ j, c.malloc w.clock w.allocated ∉ order j :=
    fun j hj => c.fresh _ _ (h.shape.1.allocated j _ hj)
  have hset := h.written hnew key value
  exact ⟨⟨hset.shape.setAllocated (fun j x hx => List.mem_cons_of_mem _ (hset.shape.1.allocated j x hx)) _,hset.entries⟩,hnew⟩

/-- A map that has not the key of an entry of another map is not that map. -/
theorem Represents.other_ne (h : Represents c w order s) (hm : order other = xs ++ e::ys) (habsent : (s m).find (w.key e) = none) :
    other ≠ m := by
  rintro rfl
  rw [h.find_place hm (c.equivalence.refl _)] at habsent
  cases habsent

variable [DecidableEq M]

theorem entries_update {o : OrderedMap c.setoid V} {l : List A} {f : A → K × V} (h : ∀ j, (order j).map f = (s j).entries)
    (ho : l.map f = o.entries) (j : M) : (update order m l j).map f = (update s m o j).entries := by
  by_cases hj : j = m
  · subst hj
    rw [update_self,update_self,ho]
  · rw [update_of_ne hj,update_of_ne hj,h j]

theorem Represents.write {f : A → K × V} {o : OrderedMap c.setoid V} (h : Represents c w order s) (hm : order m = xs ++ e::ys)
    (hf : ∀ x, x ≠ e → f x = entry w x) (ho : o.entries = xs.map (entry w) ++ f e::ys.map (entry w)) (j : M) :
    (order j).map f = (update s m o j).entries := by
  have hkeep : ∀ l : List A, e ∉ l → l.map f = l.map (entry w) := fun l hl => List.map_congr_left fun x hx => hf x fun hxe => hl (hxe ▸ hx)
  by_cases hj : j = m
  · subst hj
    have hnodup := h.apart.nodup j
    rw [hm,List.nodup_middle,List.nodup_cons,List.mem_append,not_or] at hnodup
    rw [update_self,ho,hm,List.map_append,List.map_cons,hkeep xs hnodup.1.1,hkeep ys hnodup.1.2]
  · rw [update_of_ne hj,← h.entries,hkeep (order j)]
    exact fun he => hj (h.apart.disjoint j m e he (by rw [hm]; simp))

variable [DecidableEq A]

theorem Represents.linked (h : Represents c w order s) (m : M) (hash : ℕ) (o : OrderedMap c.setoid V) (hnew : ∀ j, e ∉ order j)
    (halloc : e ∈ w.allocated) (hhash : hash = bucketHash c w m (w.key e)) (ho : o.entries = (s m).entries ++ [entry w e]) :
    Represents c (linkEntry w m e hash) (update order m (order m ++ [e])) (update s m o) where
  shape := h.shape.linked hnew halloc hhash
  entries := by
    refine entries_update (f := entry w) h.entries ?_
    rw [List.map_append,h.entries,ho]
    rfl

theorem Represents.unlinked (h : Represents c w order s) (hm : order m = xs ++ e::ys)
    (hhash : hash = bucketHash c w m (w.key e)) (he : c.compareFunc (w.key e) key = 0) :
    Represents c (unlinkEntry w m e hash) (update order m (xs ++ ys)) (update s m ((s m).erase key)) where
  shape := h.shape.unlinked hm hhash
  entries := by
    refine entries_update (f := entry w) h.entries ?_
    rw [List.map_append,OrderedMap.erase_place (h.place hm) he]

theorem Represents.removed (h : Represents c w order s) (hm : order m = xs ++ e::ys) (he : c.compareFunc (w.key e) key = 0) :
    Represents c (removeEntry c w m e) (update order m (xs ++ ys)) (update s m ((s m).erase key)) where
  shape := h.shape.removed hm
  entries := (h.unlinked hm rfl he).entries

theorem Represents.resized (h : Represents c w order s) (m : M) : ∃ r, resizeBuckets c w m = some r ∧
    Represents c r.1 order s ∧ (r.2 = false → r.1 = w) := by
  obtain ⟨r,hrun,hshape,hkey,hvalue,hsame⟩ := h.shape.resized m
  refine ⟨r,hrun,⟨hshape,fun j => ?_⟩,hsame⟩
  rw [← h.entries]
  exact List.map_congr_left fun x _ => Prod.ext (congrFun hkey x) (congrFun hvalue x)

end Represents

end HashEntries
end Udev
