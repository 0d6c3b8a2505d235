import Udev.HashSteps

/-! `resize_buckets`: the walk over the iteration list takes each entry out of its old bucket and puts it into a new one,
under another seed. In the middle of it the entries in front of the walk are in the new buckets and the others in the old
ones, and all of these chains are apart. -/
namespace Udev
namespace HashEntries

open LinkedChains Function

variable {M A K V Seed : Type*} [DecidableEq M] {c : Calls M A K Seed} {w : World M A K V Seed}
  {order : M → List A} {chain : M × ℕ → List A} {m : M} {nkey : Seed} {size : ℕ} {n : ℕ → Option A} {new : ℕ → List A}
  {i : A} {xs ys : List A}

/-- The entries `xs` are in the new buckets already. -/
structure Moving (c : Calls M A K Seed) (order : M → List A) (m : M) (nkey : Seed) (size : ℕ) (w : World M A K V Seed)
    (n : ℕ → Option A) (chain : M × ℕ → List A) (new : ℕ → List A) (xs ys : List A) : Prop where
  links : Chains w.bucketNext w.bucketPrevious (Sum.elim chain new)
  heads : Heads w.buckets chain
  newHeads : Heads n new
  old : ∀ j b e, e ∈ chain (j,b) ↔ e ∈ update order m ys j ∧ bucketHash c w j (w.key e) = b
  moved : ∀ b e, e ∈ new b ↔ e ∈ xs ∧ c.hashFunc m (w.key e) nkey%size = b
  pos : ∀ j, 0 < w.nBuckets j

theorem Moving.start (h : Hashed c w order chain) (m : M) (nkey : Seed) (size clock : ℕ) :
    Moving c order m nkey size { w with clock := clock } (fun _ => none) chain (fun _ => []) [] (order m) where
  links := h.buckets.sum_nil
  heads := h.heads
  newHeads _ := rfl
  old := by
    rw [update_eq_self]
    exact h.mem
  moved b e := by
    refine iff_of_false List.not_mem_nil fun he => absurd he.1 List.not_mem_nil
  pos := h.pos

/-- Where the chain of a bucket is when the new buckets take the place of the old ones of the map. -/
def newPlace (m : M) (i : M × ℕ) : (M × ℕ) ⊕ ℕ := if i.1 = m then Sum.inr i.2 else Sum.inl i

theorem newPlace_injective (m : M) : (newPlace m).Injective := by
  rintro ⟨j,a⟩ ⟨k,b⟩ hjk
  rw [newPlace,newPlace] at hjk
  by_cases hj : j = m
  · by_cases hk : k = m
    · rw [if_pos hj,if_pos hk] at hjk
      exact Prod.ext (hj.trans hk.symm) (Sum.inr.inj hjk)
    · rw [if_pos hj,if_neg hk] at hjk
      cases hjk
  · by_cases hk : k = m
    · rw [if_neg hj,if_pos hk] at hjk
      cases hjk
    · rw [if_neg hj,if_neg hk] at hjk
      exact Sum.inl.inj hjk

theorem Moving.finish (h : Moving c order m nkey size w n chain new (order m) []) (hsize : 0 < size) : ∃ chain',
    Hashed c { w with
      buckets := fun i => if i.1 = m then n i.2 else w.buckets i
      nBuckets := update w.nBuckets m size
      hashKey := update w.hashKey m nkey } order chain' := by
  have hmine : ∀ b, (Sum.elim chain new ∘ newPlace m) (m,b) = new b := fun b => congrArg (Sum.elim chain new) (if_pos rfl)
  have hother : ∀ j b, j ≠ m → (Sum.elim chain new ∘ newPlace m) (j,b) = chain (j,b) :=
    fun j b hj => congrArg (Sum.elim chain new) (if_neg hj)
  refine ⟨Sum.elim chain new ∘ newPlace m,h.links.reindex (newPlace_injective m),?_,?_,?_⟩
  · rintro ⟨j,b⟩
    by_cases hj : j = m
    · subst hj
      rw [hmine]
      exact (if_pos rfl).trans (h.newHeads b)
    · rw [hother j b hj]
      exact (if_neg hj).trans (h.heads (j,b))
  · intro j b e
    by_cases hj : j = m
    · subst hj
      rw [hmine,h.moved,bucketHash]
      dsimp only
      rw [update_self,update_self]
    · rw [hother j b hj,h.old,update_of_ne hj,bucketHash,bucketHash]
      dsimp only
      rw [update_of_ne hj,update_of_ne hj]
  · intro j
    change 0 < update w.nBuckets m size j
    by_cases hj : j = m
    · subst hj
      rwa [update_self]
    · rw [update_of_ne hj]
      exact h.pos j

variable [DecidableEq A]

theorem Moving.step (h : Moving c order m nkey size w n chain new xs (i::ys)) (hapart : Apart order)
    (hm : order m = xs ++ i::ys) : ∃ chain' new',
      Moving c order m nkey size (rehashEntry c m nkey size w n i).1 (rehashEntry c m nkey size w n i).2 chain' new' (xs ++ [i]) ys := by
  have hbehind : Apart (update order m (i::ys)) := hapart.shrink (by rw [hm]; exact List.sublist_append_right _ _)
  have hself : update order m (i::ys) m = [] ++ i::ys := update_self _ _ _
  obtain ⟨us,vs,hi⟩ := List.append_of_mem ((h.old m (bucketHash c w m (w.key i)) i).mpr ⟨by rw [hself]; exact List.mem_cons_self,rfl⟩)
  have hi' : Sum.elim chain new (Sum.inl (m,bucketHash c w m (w.key i))) = us ++ i::vs := hi
  have hnext := h.links.next _ us i vs hi'
  have hprev := h.links.prev_of hi'
  have hunlinked := h.links.unlink hi'
  have hgone : ∀ j, i ∉ update (Sum.elim chain new) (Sum.inl (m,bucketHash c w m (w.key i))) (us ++ vs) j :=
    fun j hj => ((h.links.apart.mem_unlinked hi').mp hj).2 rfl
  have hheads := h.heads.unlink hi
  have hmem : ∀ j x, x ∈ update chain (m,bucketHash c w m (w.key i)) (us ++ vs) j ↔ x ∈ chain j ∧ x ≠ i := by
    intro j x
    have hsum := h.links.apart.mem_unlinked hi' (j := Sum.inl j) (x := x)
    rwa [Sum.update_elim_inl] at hsum
  rw [Sum.update_elim_inl] at hunlinked hgone
  have hpushed := hunlinked.pushFront hgone (Sum.inr (c.hashFunc m (w.key i) nkey%size))
  rw [Sum.update_elim_inr,Sum.elim_inr,← h.newHeads] at hpushed
  refine ⟨update chain (m,bucketHash c w m (w.key i)) (us ++ vs),_,?_,?_,h.newHeads.cons (c.hashFunc m (w.key i) nkey%size) i,fun j b x => ?_,fun b x => ?_,h.pos⟩
  · rw [rehashEntry,unlinkBucket]
    dsimp only
    rw [setAt_self,hnext,hprev]
    exact hpushed
  · rw [rehashEntry,unlinkBucket]
    dsimp only
    rw [setAt_self,hnext,hprev]
    exact hheads
  · have hrest := hbehind.mem_unlinked hself (j := j) (x := x)
    rw [update_idem,List.nil_append] at hrest
    rw [hmem,h.old j b x,hrest,and_right_comm]
    rfl
  · rw [mem_insert (List.Perm.refl _),h.moved b x,List.mem_append,List.mem_singleton,or_and_right]
    refine or_congr Iff.rfl (and_congr_right fun hx => ?_)
    subst hx
    exact eq_comm

theorem Moving.run {k : ℕ} (h : Moving c order m nkey size w n chain new xs ys) (hlist : Listed w order)
    (hm : order m = xs ++ ys) (hk : ys.length ≤ k) : ∃ r chain' new', rehashFrom c m nkey size k ys.head? w n = some r ∧
      Moving c order m nkey size r.1 r.2 chain' new' (order m) [] ∧ Listed r.1 order ∧ r.1.key = w.key ∧ r.1.value = w.value := by
  induction ys generalizing k w n chain new xs with
  | nil =>
    rw [List.append_nil] at hm
    rw [hm]
    exact ⟨(w,n),chain,new,by cases k <;> rfl,h,hlist,rfl,rfl⟩
  | cons i ys ih =>
    cases k with
    | zero => exact absurd hk (Nat.not_succ_le_zero _)
    | succ k =>
      obtain ⟨chain',new',hstep⟩ := h.step hlist.iterate.apart hm
      have hkept : Listed (rehashEntry c m nkey size w n i).1 order :=
        ⟨hlist.iterate,hlist.first,hlist.last,hlist.count,hlist.allocated⟩
      have hnext : (rehashEntry c m nkey size w n i).1.iterateNext i = ys.head? := hlist.iterate.next m xs i ys hm
      have hm' : order m = xs ++ [i] ++ ys := by rw [hm,List.append_assoc]; rfl
      rw [List.head?_cons,rehashFrom,hnext]
      exact ih hstep hkept hm' (Nat.le_of_succ_le_succ hk)

/-- After `resize_buckets` the maps hold the same entries in the same order. -/
theorem Shape.resized (h : Shape c w order) (m : M) : ∃ r, resizeBuckets c w m = some r ∧
    Shape c r.1 order ∧ r.1.key = w.key ∧ r.1.value = w.value ∧ (r.2 = false → r.1 = w) := by
  obtain ⟨hlist,chain,hhash⟩ := h
  rw [resizeBuckets]
  by_cases hfull : unsigned (w.nEntries m*4) < unsigned (w.nBuckets m*3)
  · rw [if_pos hfull]
    exact ⟨_,rfl,⟨hlist,chain,hhash⟩,rfl,rfl,fun _ => rfl⟩
  · rw [if_neg hfull]
    dsimp only
    have hsize : 0 < unsigned ((w.nEntries m+1)*4+(2^32-1)) := by
      unfold unsigned
      omega
    generalize unsigned ((w.nEntries m+1)*4+(2^32-1)) = size at hsize
    have hstart := Moving.start hhash m (c.randomBytes w.clock) size (w.clock+1)
    have hkept : Listed { w with clock := w.clock+1 } order :=
      ⟨hlist.iterate,hlist.first,hlist.last,hlist.count,hlist.allocated⟩
    obtain ⟨r,chain',new',hrun,hmoved,hlist',hkey,hvalue⟩ := hstart.run hkept (List.nil_append _).symm (hlist.length_le m)
    rw [hlist.first,hrun]
    refine ⟨_,rfl,⟨⟨hlist'.iterate,hlist'.first,hlist'.last,hlist'.count,hlist'.allocated⟩,hmoved.finish hsize⟩,hkey,hvalue,?_⟩
    exact fun hfalse => absurd hfalse.symm Bool.false_ne_true

end HashEntries
end Udev
