import Udev.Hashmap
import Udev.HashMaps

/-! The calls of the hash maps do to the memory what they do to the finite maps, and so do runs of them. -/
namespace Udev
namespace HashEntries

open LinkedChains Function

variable {M A K V Seed R : Type*} {c : Calls M A K Seed}

/-- A call ends, in a memory that represents the finite maps, and with the same result. -/
def Simulates (c : Calls M A K Seed) (x : Option (World M A K V Seed × R)) (y : Maps c V × R) : Prop :=
  ∃ r order, x = some r ∧ Represents c r.1 order y.1 ∧ r.2 = y.2

theorem Simulates.map {R' : Type*} {x : Option (World M A K V Seed × R)} {y : Maps c V × R} (h : Simulates c x y) (f : R → R') :
    Simulates c (x.map fun r => (r.1,f r.2)) (y.1,f y.2) := by
  obtain ⟨r,order,rfl,hrep,hr⟩ := h
  exact ⟨(r.1,f r.2),order,rfl,hrep,congrArg f hr⟩

section Calls

variable {w : World M A K V Seed} {order : M → List A} {s : Maps c V} {m other : M} {e : A} {key : K} {value : V} {xs ys : List A}
  [DecidableEq M] [DecidableEq A]

theorem Represents.put_absent [DecidableEq V] (h : Represents c w order s) (habsent : (s m).find key = none) (value : V) :
    ∃ r e, hashmapPut c w m key value = some r ∧ r.2 = 1 ∧
      Represents c r.1 (update order m (order m ++ [e])) (update s m ((s m).add key value)) := by
  rcases h.scan m key with ⟨hscan,-⟩ | ⟨e,xs,ys,-,hm,he⟩
  · obtain ⟨r,hresize,hrep,hsame⟩ := h.resized m
    have hhash : (if r.2 = true then bucketHash c r.1 m key else bucketHash c w m key) = bucketHash c r.1 m key := by
      by_cases hr : r.2 = true
      · rw [if_pos hr]
      · rw [if_neg hr,hsame (Bool.eq_false_iff.mpr hr)]
    obtain ⟨hentry,hnew⟩ := hrep.allocate key value
    have hkey : (newEntry c r.1 key value).2.key (newEntry c r.1 key value).1 = key := update_self _ _ _
    have hvalue : (newEntry c r.1 key value).2.value (newEntry c r.1 key value).1 = value := update_self _ _ _
    rw [hashmapPut]
    dsimp only
    rw [hscan,Option.bind_some]
    dsimp only
    rw [hresize,Option.map_some,hhash]
    refine ⟨_,(newEntry c r.1 key value).1,rfl,rfl,hentry.linked m _ _ hnew List.mem_cons_self ?_ ?_⟩
    · rw [hkey]
      rfl
    · rw [OrderedMap.add_absent habsent,entry,hkey,hvalue]
  · rw [h.find_place hm he] at habsent
    cases habsent

theorem put_present [DecidableEq V] (hscan : hashScan c w m (bucketHash c w m key) key = some (some e)) (value : V) :
    hashmapPut c w m key value = some (w,if w.value e = value then 0 else -EEXIST) := by
  rw [hashmapPut]
  dsimp only
  rw [hscan]
  rfl

theorem Represents.put [DecidableEq V] (h : Represents c w order s) (m : M) (key : K) (value : V) :
    Simulates c (hashmapPut c w m key value) (specPut s m key value) := by
  rw [specPut,OrderedMap.lookup]
  rcases h.scan m key with ⟨-,habsent⟩ | ⟨e,xs,ys,hscan,hm,he⟩
  · obtain ⟨r,e,hrun,hr,hrep⟩ := h.put_absent habsent value
    rw [habsent]
    exact ⟨r,_,hrun,hrep,hr⟩
  · rw [h.find_place hm he,put_present hscan]
    exact ⟨_,order,rfl,h,rfl⟩

theorem Represents.replace [DecidableEq V] (h : Represents c w order s) (m : M) (key : K) (value : V) :
    Simulates c (hashmapReplace c w m key value) (specReplace s m key value) := by
  rw [specReplace,hashmapReplace]
  rcases h.scan m key with ⟨hscan,habsent⟩ | ⟨e,xs,ys,hscan,hm,he⟩
  · rw [hscan,OrderedMap.contains,habsent]
    exact h.put m key value
  · rw [hscan,if_pos (h.contains_place hm he)]
    have hkey : ∀ j, e ∈ order j → c.compareFunc (w.key e) key = 0 := fun _ _ => he
    refine ⟨_,order,rfl,⟨h.shape.written hkey value,h.write hm (fun x hx => ?_) ?_⟩,rfl⟩
    · exact Prod.ext (update_of_ne hx _ _) (update_of_ne hx _ _)
    · have hentry : entry (setEntry w e key value) e = (key,value) := Prod.ext (update_self _ _ _) (update_self _ _ _)
      rw [hentry,OrderedMap.replace_place (h.place hm) he]

theorem Represents.update (h : Represents c w order s) (m : M) (key : K) (value : V) :
    Simulates c (hashmapUpdate c w m key value) (specUpdate s m key value) := by
  rw [specUpdate,hashmapUpdate]
  rcases h.scan m key with ⟨hscan,habsent⟩ | ⟨e,xs,ys,hscan,hm,he⟩
  · rw [hscan,OrderedMap.contains,habsent]
    exact ⟨_,order,rfl,h,rfl⟩
  · rw [hscan,if_pos (h.contains_place hm he)]
    refine ⟨_,order,rfl,⟨h.shape.setValue _,h.write hm (fun x hx => ?_) ?_⟩,rfl⟩
    · exact Prod.ext rfl (update_of_ne hx _ _)
    · have hentry : (w.key e,Function.update w.value e value e) = (w.key e,value) := Prod.ext rfl (update_self _ _ _)
      rw [OrderedMap.update_place (h.place hm) he]
      exact congrArg (fun p => _ ++ p::_) hentry.symm

theorem Represents.remove (h : Represents c w order s) (m : M) (key : K) :
    Simulates c (hashmapRemove c w m key) (specRemove s m key) := by
  rw [specRemove,hashmapRemove,OrderedMap.lookup]
  rcases h.scan m key with ⟨hscan,habsent⟩ | ⟨e,xs,ys,hscan,hm,he⟩
  · rw [hscan,habsent,OrderedMap.erase_absent habsent,update_eq_self]
    exact ⟨_,order,rfl,h,rfl⟩
  · rw [hscan,h.find_place hm he]
    exact ⟨_,_,rfl,h.removed hm he,rfl⟩

/-- An entry is taken out of its map and linked again under another key, as the last one. -/
theorem Represents.relink (h : Represents c w order s) (newKey : K) (hm : order m = xs ++ e::ys)
    (he : c.compareFunc (w.key e) key = 0) (hnew : ((s m).erase key).find newKey = none) (value : V) :
    ∃ order', Represents c (linkEntry (setEntry (unlinkEntry w m e (bucketHash c w m key)) e newKey value) m e (bucketHash c w m newKey))
      order' (Function.update s m (((s m).erase key).add newKey value)) := by
  have hunlinked := h.unlinked hm (bucketHash_eq m he).symm he
  have hgone : ∀ j, e ∉ Function.update order m (xs ++ ys) j := fun j hj => ((h.apart.mem_unlinked hm).mp hj).2 rfl
  have hset := hunlinked.written hgone newKey value
  have hkey : (setEntry (unlinkEntry w m e (bucketHash c w m key)) e newKey value).key e = newKey := update_self _ _ _
  have hvalue : (setEntry (unlinkEntry w m e (bucketHash c w m key)) e newKey value).value e = value :=
    update_self _ _ _
  have halloc : e ∈ w.allocated := h.shape.1.allocated m e (by rw [hm]; simp)
  have hlinked := hset.linked m (bucketHash c w m newKey) (((s m).erase key).add newKey value) hgone halloc
    (by rw [hkey]; rfl) (by rw [update_self,OrderedMap.add_absent hnew,entry,hkey,hvalue])
  rw [update_idem,update_idem] at hlinked
  exact ⟨_,hlinked⟩

theorem Represents.removeAndPut (h : Represents c w order s) (m : M) (oldKey newKey : K) (value : V) :
    Simulates c (hashmapRemoveAndPut c w m oldKey newKey value) (specRemoveAndPut s m oldKey newKey value) := by
  rw [specRemoveAndPut,hashmapRemoveAndPut]
  dsimp only
  rcases h.scan m oldKey with ⟨hscan,habsent⟩ | ⟨e,xs,ys,hscan,hm,he⟩
  · rw [hscan,OrderedMap.contains,habsent]
    exact ⟨_,order,rfl,h,rfl⟩
  · rw [hscan,if_pos (h.contains_place hm he),Option.bind_some]
    dsimp only
    rcases h.scan m newKey with ⟨hscan',habsent⟩ | ⟨k,us,vs,hscan',hm',hk⟩
    · rw [hscan',OrderedMap.contains,habsent]
      obtain ⟨order',hrep⟩ := h.relink newKey hm he (OrderedMap.find_erase_none habsent) value
      exact ⟨_,order',rfl,hrep,rfl⟩
    · rw [hscan',if_pos (h.contains_place hm' hk)]
      exact ⟨_,order,rfl,h,rfl⟩

theorem Represents.removeAndReplace (h : Represents c w order s) (m : M) (oldKey newKey : K) (value : V) :
    Simulates c (hashmapRemoveAndReplace c w m oldKey newKey value) (specRemoveAndReplace s m oldKey newKey value) := by
  rw [specRemoveAndReplace,hashmapRemoveAndReplace]
  dsimp only
  rcases h.scan m oldKey with ⟨hscan,habsent⟩ | ⟨e,xs,ys,hscan,hm,he⟩
  · rw [hscan,OrderedMap.contains,habsent]
    exact ⟨_,order,rfl,h,rfl⟩
  · rw [hscan,if_pos (h.contains_place hm he),Option.bind_some]
    dsimp only
    rcases h.scan m newKey with ⟨hscan',habsent⟩ | ⟨k,us,vs,hscan',hm',hk⟩
    · rw [hscan']
      obtain ⟨order',hrep⟩ := h.relink newKey hm he (OrderedMap.find_erase_none habsent) value
      exact ⟨_,order',rfl,hrep,rfl⟩
    · rw [hscan',Option.map_some,Option.elim_some]
      by_cases hek : e = k
      · subst hek
        have hnew : ((s m).erase oldKey).find newKey = none := by
          refine OrderedMap.find_eq_none.mpr fun p hp => ?_
          rw [OrderedMap.erase_place (h.place hm) he] at hp
          exact OrderedMap.not_equiv (h.place hm) hk p hp
        obtain ⟨order',hrep⟩ := h.relink newKey hm he hnew value
        rw [if_neg (not_not.mpr rfl)]
        exact ⟨_,order',rfl,hrep,rfl⟩
      · have hremoved := h.removed hm' hk
        have hmem : e ∈ Function.update order m (us ++ vs) m := (h.apart.mem_unlinked hm').mpr ⟨by rw [hm]; simp,hek⟩
        obtain ⟨xs',ys',hm''⟩ := List.append_of_mem hmem
        obtain ⟨order',hrep⟩ := hremoved.relink newKey hm'' he
          (by rw [update_self]; exact OrderedMap.find_erase_none (OrderedMap.find_erase _ _)) value
        rw [update_idem,update_self,OrderedMap.add_erase] at hrep
        rw [if_pos hek]
        exact ⟨_,order',rfl,hrep,rfl⟩

theorem Represents.transfer (h : Represents c w order s) (hm : order other = xs ++ e::ys) (he : c.compareFunc (w.key e) key = 0)
    (habsent : (s m).find (w.key e) = none) :
    Represents c (linkEntry (unlinkEntry w other e (bucketHash c w other key)) m e (bucketHash c w m key))
      (Function.update (Function.update order other (xs ++ ys)) m (order m ++ [e]))
      (Function.update (Function.update s other ((s other).erase key)) m ((s m).add (w.key e) (w.value e))) := by
  have hne := h.other_ne hm habsent
  have hunlinked := h.unlinked hm (bucketHash_eq other he).symm he
  have hgone : ∀ j, e ∉ Function.update order other (xs ++ ys) j := fun j hj => ((h.apart.mem_unlinked hm).mp hj).2 rfl
  have halloc : e ∈ w.allocated := h.shape.1.allocated other e (by rw [hm]; simp)
  have hlinked := hunlinked.linked m (bucketHash c w m key) ((s m).add (w.key e) (w.value e)) hgone halloc (bucketHash_eq m he).symm
    (by rw [update_of_ne hne.symm,OrderedMap.add_absent habsent]; rfl)
  rwa [update_of_ne hne.symm] at hlinked

theorem Represents.moveOne (h : Represents c w order s) (m other : M) (key : K) :
    Simulates c (hashmapMoveOne c w m other key) (specMoveOne s m other key) := by
  rw [specMoveOne,hashmapMoveOne]
  dsimp only
  rcases h.scan m key with ⟨hscan,habsent⟩ | ⟨e,xs,ys,hscan,hm,he⟩
  · rw [hscan,OrderedMap.contains,habsent,Option.bind_some]
    dsimp only
    rcases h.scan other key with ⟨hscan',habsent'⟩ | ⟨e,xs,ys,hscan',hm,he⟩
    · rw [hscan',habsent']
      exact ⟨_,order,rfl,h,rfl⟩
    · rw [hscan',h.find_place hm he]
      exact ⟨_,_,rfl,h.transfer hm he (OrderedMap.find_equiv habsent he),rfl⟩
  · rw [hscan,if_pos (h.contains_place hm he)]
    exact ⟨_,order,rfl,h,rfl⟩

omit [DecidableEq M] [DecidableEq A] in
/-- The walk has come to the end, and the map has every key of the other. -/
theorem Represents.walked (h : Represents c w order s) (hm : order other = xs ++ [])
    (hxs : ∀ x ∈ xs, (s m).contains (w.key x) = true) : ∀ p ∈ (s other).entries, (s m).contains p.1 = true := by
  rw [List.append_nil] at hm
  rw [← h.entries,hm]
  exact List.forall_mem_map.mpr hxs

/-- The walk over the other map, where the entries in front of it have keys that the map has. -/
theorem Represents.move_from {k : ℕ} (h : Represents c w order s) (hm : order other = xs ++ ys)
    (hxs : ∀ x ∈ xs, (s m).contains (w.key x) = true) (hk : ys.length ≤ k) :
    ∃ w' order', moveFrom c m other k ys.head? w = some w' ∧ Represents c w' order' (specMove s m other) := by
  induction ys generalizing k w order s xs with
  | nil =>
    have hall := h.walked hm hxs
    rw [specMove,OrderedMap.union_self hall,OrderedMap.restrict_self hall,update_eq_self,update_eq_self]
    exact ⟨w,order,by cases k <;> rfl,h⟩
  | cons e ys ih =>
    cases k with
    | zero => exact absurd hk (Nat.not_succ_le_zero _)
    | succ k =>
      have hnext : w.iterateNext e = ys.head? := h.shape.1.iterate.next other xs e ys hm
      rw [List.head?_cons,moveFrom,hnext]
      rcases h.scan m (w.key e) with ⟨hscan,habsent⟩ | ⟨e',us,vs,hscan,hm',he'⟩
      · rw [hscan,Option.bind_some]
        have hne := h.other_ne hm habsent
        have hmoved := h.transfer hm (c.equivalence.refl _) habsent
        have hplace := h.place hm
        have hcontains : ∀ p ∈ xs.map (entry w), (s m).contains p.1 = true := List.forall_mem_map.mpr hxs
        have hmono : ∀ x ∈ xs, ((s m).add (w.key e) (w.value e)).contains (w.key x) = true :=
          fun x hx => (OrderedMap.contains_add _ _ _ _).mpr (Or.inl (hxs x hx))
        have hplace' : Function.update (Function.update order other (xs ++ ys)) m (order m ++ [e]) other = xs ++ ys := by
          rw [update_of_ne hne,update_self]
        have hrest := ih hmoved hplace' (by rwa [update_self]) (Nat.le_of_succ_le_succ hk)
        rwa [← specMove_step hne hplace hcontains habsent]
      · rw [hscan]
        have hnext' : order other = xs ++ [e] ++ ys := by rw [hm,List.append_assoc]; rfl
        have hkeys := List.forall_mem_append.mpr ⟨hxs,List.forall_mem_singleton.mpr (h.contains_place hm' he')⟩
        exact ih h hnext' hkeys (Nat.le_of_succ_le_succ hk)

theorem Represents.move (h : Represents c w order s) (m other : M) :
    ∃ w' order', hashmapMove c w m other = some w' ∧ Represents c w' order' (specMove s m other) := by
  rw [hashmapMove,h.shape.1.first]
  exact h.move_from (List.nil_append _).symm (fun x hx => absurd hx List.not_mem_nil) (h.shape.1.length_le other)

/-- The walk over the other map, where the entries in front of it have keys that the map has. -/
theorem Represents.merge_from [DecidableEq V] {k : ℕ} (h : Represents c w order s) (hm : order other = xs ++ ys)
    (hxs : ∀ x ∈ xs, (s m).contains (w.key x) = true) (hk : ys.length ≤ k) :
    Simulates c (mergeFrom c m k ys.head? w) (specMerge s m other) := by
  induction ys generalizing k w order s xs with
  | nil =>
    have hall := h.walked hm hxs
    rw [specMerge,OrderedMap.union_self hall,update_eq_self]
    exact ⟨(w,0),order,by cases k <;> rfl,h,rfl⟩
  | cons e ys ih =>
    cases k with
    | zero => exact absurd hk (Nat.not_succ_le_zero _)
    | succ k =>
      rw [List.head?_cons,mergeFrom]
      have hm' : order other = xs ++ [e] ++ ys := by rw [hm,List.append_assoc]; rfl
      rcases h.scan m (w.key e) with ⟨-,habsent⟩ | ⟨e',us,vs,hscan,hm'',he'⟩
      · obtain ⟨r,new,hrun,hr,hrep⟩ := h.put_absent habsent (w.value e)
        have hne := h.other_ne hm habsent
        have horder : Function.update order m (order m ++ [new]) other = order other := update_of_ne hne _ _
        have hsame := h.entry_eq hrep horder (update_of_ne hne _ _)
        have hplace := h.place hm
        have hcontains : ∀ p ∈ xs.map (entry w), (s m).contains p.1 = true := List.forall_mem_map.mpr hxs
        have hnext : r.1.iterateNext e = ys.head? := hrep.shape.1.iterate.next other xs e ys (horder.trans hm)
        rw [hrun,Option.bind_some,if_neg (by rw [hr]; decide),hnext,← specMerge_step hne hplace hcontains habsent]
        refine ih hrep (horder.trans hm') (fun x hx => ?_) (Nat.le_of_succ_le_succ hk)
        have hkey : r.1.key x = w.key x := congrArg Prod.fst (hsame x (by rw [hm']; exact List.mem_append_left _ hx))
        rw [update_self,hkey]
        refine (OrderedMap.contains_add _ _ _ _).mpr ?_
        rcases List.mem_append.mp hx with hx | hx
        · exact Or.inl (hxs x hx)
        · rw [List.mem_singleton.mp hx]
          exact Or.inr (c.equivalence.refl _)
      · have hcode : ¬((if w.value e' = w.value e then 0 else -EEXIST) < 0 ∧ (if w.value e' = w.value e then 0 else -EEXIST) ≠ -EEXIST) := by
          by_cases hv : w.value e' = w.value e
          · rw [if_pos hv]
            decide
          · rw [if_neg hv]
            exact fun hor => hor.2 rfl
        have hnext : w.iterateNext e = ys.head? := h.shape.1.iterate.next other xs e ys hm
        rw [put_present hscan,Option.bind_some,if_neg hcode,hnext]
        have hkeys := List.forall_mem_append.mpr ⟨hxs,List.forall_mem_singleton.mpr (h.contains_place hm'' he')⟩
        exact ih h hm' hkeys (Nat.le_of_succ_le_succ hk)

theorem Represents.merge [DecidableEq V] (h : Represents c w order s) (m other : M) :
    Simulates c (hashmapMerge c w m other) (specMerge s m other) := by
  rw [hashmapMerge,h.shape.1.first]
  exact h.merge_from (List.nil_append _).symm (fun x hx => absurd hx List.not_mem_nil) (h.shape.1.length_le other)

end Calls

section Runs

variable {w : World M A K V Seed} {order : M → List A} {s : Maps c V}

theorem represents_new (c : Calls M A K Seed) (w : World M A K V Seed) :
    Represents c (hashmapNew w) (fun _ => []) (fun _ => .empty) where
  shape := by
    refine ⟨⟨Chains.nil _ _,fun _ => rfl,fun _ => rfl,fun _ => rfl,fun _ _ he => absurd he List.not_mem_nil⟩,fun _ => [],
      Chains.nil _ _,fun _ => rfl,fun _ _ _ => ?_,fun _ => (by decide : 0 < initialNBuckets)⟩
    exact iff_of_false List.not_mem_nil fun he => absurd he.1 List.not_mem_nil
  entries _ := rfl

theorem Represents.step [DecidableEq M] [DecidableEq A] [DecidableEq V] (h : Represents c w order s) (op : Op M K V) :
    Simulates c (step c w op) (specStep s op) := by
  cases op with
  | put m key value => exact (h.put m key value).map Result.code
  | replace m key value => exact (h.replace m key value).map Result.code
  | update m key value => exact (h.update m key value).map Result.code
  | remove m key =>
    cases m with
    | none => exact ⟨_,order,rfl,h,rfl⟩
    | some m => exact (h.remove m key).map Result.data
  | removeAndPut m oldKey newKey value =>
    cases m with
    | none => exact ⟨_,order,rfl,h,rfl⟩
    | some m => exact (h.removeAndPut m oldKey newKey value).map Result.code
  | removeAndReplace m oldKey newKey value =>
    cases m with
    | none => exact ⟨_,order,rfl,h,rfl⟩
    | some m => exact (h.removeAndReplace m oldKey newKey value).map Result.code
  | move m other =>
    cases other with
    | none => exact ⟨_,order,rfl,h,rfl⟩
    | some other =>
      obtain ⟨w',order',hrun,hrep⟩ := h.move m other
      refine ⟨(w',.unit),order',?_,hrep,rfl⟩
      exact congrArg (Option.map fun w => (w,Result.unit)) hrun
  | moveOne m other key =>
    cases other with
    | none => exact ⟨_,order,rfl,h,rfl⟩
    | some other => exact (h.moveOne m other key).map Result.code
  | merge m other =>
    cases other with
    | none => exact ⟨_,order,rfl,h,rfl⟩
    | some other => exact (h.merge m other).map Result.code

theorem Represents.run [DecidableEq M] [DecidableEq A] [DecidableEq V] (h : Represents c w order s) (ops : List (Op M K V)) :
    Simulates c (run c w ops) (specRun s ops) := by
  induction ops generalizing w order s with
  | nil => exact ⟨_,order,rfl,h,rfl⟩
  | cons op ops ih =>
    obtain ⟨r,order',hstep,hrep,hr⟩ := h.step op
    obtain ⟨r',order'',hrun,hrep',hr'⟩ := ih hrep
    rw [HashEntries.run,hstep,Option.bind_some,hrun,specRun]
    exact ⟨_,order'',rfl,hrep',congrArg₂ List.cons hr hr'⟩

/-- The calls of `hashmap_iterate` behind an entry visit the rest of the list. -/
theorem iterate_from {m : M} {n : ℕ} {xs ys : List A} (h : Listed w order) (hm : order m = xs ++ ys) (hn : ys.length < n) :
    iterateFrom w m n (ys.head?.elim .last .at) = some ys := by
  induction ys generalizing n xs with
  | nil =>
    cases n with
    | zero => exact absurd hn (Nat.not_lt_zero _)
    | succ n => rfl
  | cons e ys ih =>
    cases n with
    | zero => exact absurd hn (Nat.not_lt_zero _)
    | succ n =>
      have hm' : order m = xs ++ [e] ++ ys := by rw [hm,List.append_assoc]; rfl
      have hrest := ih hm' (Nat.lt_of_succ_lt_succ hn)
      rw [← h.iterate.next m xs e ys hm] at hrest
      change (iterateFrom w m n ((w.iterateNext e).elim .last .at)).map (e::·) = _
      rw [hrest]
      rfl

theorem Listed.iterate_eq (h : Listed w order) (m : M) : HashEntries.iterate w m = some (order m) := by
  have hlen := h.length_le m
  have hfirst := h.first m
  cases hm : order m with
  | nil =>
    rw [hm] at hfirst
    rw [HashEntries.iterate,iterateFrom,hashmapIterate,hfirst]
    rfl
  | cons e ys =>
    rw [hm] at hfirst hlen
    have hm' : order m = [e] ++ ys := hm
    have hrest := iterate_from h hm' hlen
    rw [← h.iterate.next m [] e ys hm] at hrest
    rw [HashEntries.iterate,iterateFrom,hashmapIterate,hfirst]
    change (iterateFrom w m w.allocated.length ((w.iterateNext e).elim .last .at)).map (e::·) = _
    rw [hrest]
    rfl

/-- What the calls that read say about the memory: the values, the number of entries, the entries in their order, and
which of them are in the buckets. -/
structure Agrees (c : Calls M A K Seed) (w : World M A K V Seed) (s : Maps c V) : Prop where
  get : ∀ m key, hashmapGet c w m key = some ((s m).lookup key)
  size : ∀ m, (s m).entries.length < 2^28 → w.nEntries m = (s m).entries.length
  visits : ∀ m, ∃ l, iterate w m = some l ∧ l.Nodup ∧ l.map (entry w) = (s m).entries ∧
    (∀ e ∈ l, bucketHash c w m (w.key e) < w.nBuckets m) ∧
    ∀ b < w.nBuckets m, ∃ l', bucketEntries w m b = some l' ∧ l'.Nodup ∧
      ∀ e, e ∈ l' ↔ e ∈ l ∧ bucketHash c w m (w.key e) = b

theorem Represents.agrees (h : Represents c w order s) : Agrees c w s where
  get m key := by
    rw [hashmapGet,OrderedMap.lookup]
    rcases h.scan m key with ⟨hscan,habsent⟩ | ⟨e,xs,ys,hscan,hm,he⟩
    · rw [hscan,habsent]
      rfl
    · rw [hscan,h.find_place hm he]
      rfl
  size m hsize := by
    rw [h.shape.1.count,← h.entries,List.length_map]
    rw [← h.entries,List.length_map] at hsize
    exact Nat.mod_eq_of_lt (by omega)
  visits m := by
    obtain ⟨hlist,chain,hhash⟩ := h.shape
    refine ⟨order m,hlist.iterate_eq m,hlist.iterate.apart.nodup m,h.entries m,fun e _ => Nat.mod_lt _ (hhash.pos m),fun b _ => ?_⟩
    refine ⟨chain (m,b),?_,hhash.buckets.apart.nodup _,fun e => hhash.mem m b e⟩
    rw [bucketEntries,hhash.heads]
    exact hhash.buckets.next.walk (((hhash.buckets.apart.nodup _).subperm fun e he => hlist.allocated m e ((hhash.mem m b e).mp he).1).length_le)

/-- Any sequence of calls ends, with the results of the finite maps, and in a memory that agrees with them. -/
theorem hashmap_runs [DecidableEq M] [DecidableEq A] [DecidableEq V] (c : Calls M A K Seed) (w : World M A K V Seed)
    (ops : List (Op M K V)) : ∃ r, run c (hashmapNew w) ops = some r ∧
      r.2 = (specRun (fun _ => .empty : Maps c V) ops).2 ∧ Agrees c r.1 (specRun (fun _ => .empty : Maps c V) ops).1 := by
  obtain ⟨r,order,hrun,hrep,hr⟩ := (represents_new c w).run ops
  exact ⟨r,hrun,hr,hrep.agrees⟩

/-- Keys are numbers, of which the hash is the sum with the random number. -/
def sums : Calls Bool ℕ ℕ ℕ where
  hashFunc _ key seed := key+seed
  compareFunc a b := a-b
  malloc _ l := l.max?.getD 0+1
  randomBytes := id
  equivalence := ⟨fun a => Int.sub_self a,fun h => by omega,fun h h' => by omega⟩
  respects := fun _ a b _ h => by rw [show a = b by omega]
  fresh := fun _ l h => absurd (List.le_max?_getD_of_mem h) (Nat.not_succ_le_self _)

/-- A memory with something in every field. -/
def junk : World Bool ℕ ℕ ℕ ℕ where
  key := id
  value := id
  bucketNext := some
  bucketPrevious := some
  iterateNext := some
  iteratePrevious := some
  iterateListHead := some ∘ Bool.toNat
  iterateListTail := some ∘ Bool.toNat
  buckets i := some i.2
  nBuckets := Bool.toNat
  nEntries := Bool.toNat
  hashKey := Bool.toNat
  allocated := []
  clock := 0

theorem hashmap_runs_move : ∃ r, run sums (hashmapNew junk)
      [.put false 1 10,.put false 32 20,.put true 32 7,.move true (some false),.replace true 1 11] = some r ∧
    r.2 = [.code 1,.code 1,.code 1,.unit,.code 0] ∧
    ∃ l, iterate r.1 true = some l ∧ l.map (entry r.1) = [(32,7),(1,11)] := by
  obtain ⟨r,hrun,hresults,hagrees⟩ := hashmap_runs sums junk
    [.put false 1 10,.put false 32 20,.put true 32 7,.move true (some false),.replace true 1 11]
  obtain ⟨l,hl,-,hentries,-⟩ := hagrees.visits true
  exact ⟨r,hrun,hresults.trans (by decide),l,hl,hentries.trans (by decide)⟩

section Puts

variable [DecidableEq M] [DecidableEq K] [DecidableEq V]

theorem specRun_puts (hkeys : ∀ a b, c.compareFunc a b = 0 ↔ a = b) (s : Maps c V) (m : M) (l : List (K × V)) :
    ((specRun s (l.map fun e => .put m e.1 e.2)).1 m).entries = l.foldl Hashmap.keepFirst (s m).entries := by
  induction l generalizing s with
  | nil => rfl
  | cons e l ih =>
    have hput : ((specPut s m e.1 e.2).1 m).entries = Hashmap.keepFirst (s m).entries e := by
      rw [specPut,OrderedMap.lookup,Hashmap.keepFirst]
      cases hfind : (s m).find e.1 with
      | none =>
        have habsent : e.1 ∉ (s m).entries.map (·.1) := by
          intro hmem
          obtain ⟨p,hp,heq⟩ := List.mem_map.mp hmem
          exact OrderedMap.find_eq_none.mp hfind p hp ((hkeys _ _).mpr heq)
        rw [if_neg habsent,← OrderedMap.add_absent hfind]
        exact congrArg OrderedMap.entries (update_self m _ s)
      | some p =>
        have hpresent : e.1 ∈ (s m).entries.map (·.1) := by
          have hsame := List.find?_some (p := fun q : K × V => decide (c.setoid.r q.1 e.1)) hfind
          exact List.mem_map.mpr ⟨p,List.mem_of_find?_eq_some hfind,(hkeys _ _).mp (of_decide_eq_true hsame)⟩
        rw [if_pos hpresent]
        rfl
    rw [List.map_cons,specRun,List.foldl_cons,← hput]
    exact ih _

/-- The table whose chains are lists holds the entries that the linked one holds after the same calls, in the same
order, whatever the hash functions and random keys of both are. -/
theorem puts_agree [DecidableEq A] {κ : Type*} (hkeys : ∀ a b, c.compareFunc a b = 0 ↔ a = b) (w : World M A K V Seed) (m : M)
    (hash : K → κ → ℕ) (nkey : κ) (random : ℕ → κ) (l : List (K × V)) :
    ∃ r visits, run c (hashmapNew w) (l.map fun e => .put m e.1 e.2) = some r ∧ iterate r.1 m = some visits ∧
      visits.map (entry r.1) = (l.foldl (fun h e => (Hashmap.hashmapPut hash h (random h.iterateList.length) e.1 e.2).2)
        (Hashmap.hashmapNew nkey)).iterateList := by
  have hlists : ∀ (h : Hashmap κ K V), Hashmap.Hashed hash h →
      (l.foldl (fun h e => (Hashmap.hashmapPut hash h (random h.iterateList.length) e.1 e.2).2) h).iterateList =
        l.foldl Hashmap.keepFirst h.iterateList := by
    induction l with
    | nil => exact fun _ _ => rfl
    | cons e l ih =>
      intro h hh
      obtain ⟨hhashed,hlist⟩ := Hashmap.iterateList_hashmapPut hh (random h.iterateList.length) e
      rw [List.foldl_cons,ih _ hhashed,hlist,List.foldl_cons]
  obtain ⟨r,order,hrun,hrep,-⟩ := (represents_new c w).run (l.map fun e => .put m e.1 e.2)
  obtain ⟨visits,hvisits,-,hentries,-⟩ := hrep.agrees.visits m
  refine ⟨r,visits,hrun,hvisits,?_⟩
  rw [hentries,specRun_puts hkeys,hlists _ (Hashmap.hashed_new nkey)]
  rfl

end Puts

end Runs

end HashEntries
end Udev
