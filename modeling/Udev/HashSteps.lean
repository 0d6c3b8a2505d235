import Mathlib.Data.List.Perm.Subperm
import Udev.HashEntries

/-! What the hash maps keep: the iteration lists and the chains of the buckets are linked, and an entry of a map is in the
chain of its hash. The two structures are apart, as `link_entry` and `unlink_entry` change first one and then the other. -/
namespace Udev
namespace HashEntries

open LinkedChains Function

variable {M A K V Seed : Type*} {c : Calls M A K Seed} {w : World M A K V Seed} {order content : M → List A}
  {chain : M × ℕ → List A} {m : M} {e : A} {hash : ℕ} {k key : K} {value : V} {xs ys : List A}

/-- The iteration lists are `order`. -/
structure Listed (w : World M A K V Seed) (order : M → List A) : Prop where
  iterate : Chains w.iterateNext w.iteratePrevious order
  first : Heads w.iterateListHead order
  last : Heads w.iterateListTail (rev order)
  count : ∀ m, w.nEntries m = unsigned (order m).length
  allocated : ∀ m, ∀ e ∈ order m, e ∈ w.allocated

/-- The chains of the buckets hold the entries of `content`, each by its hash. -/
structure Hashed (c : Calls M A K Seed) (w : World M A K V Seed) (content : M → List A) (chain : M × ℕ → List A) : Prop where
  buckets : Chains w.bucketNext w.bucketPrevious chain
  heads : Heads w.buckets chain
  mem : ∀ m b e, e ∈ chain (m,b) ↔ e ∈ content m ∧ bucketHash c w m (w.key e) = b
  pos : ∀ m, 0 < w.nBuckets m

/-- The maps hold the entries of `order`, in this order. -/
def Shape (c : Calls M A K Seed) (w : World M A K V Seed) (order : M → List A) : Prop :=
  Listed w order ∧ ∃ chain, Hashed c w order chain

theorem bucketHash_eq {p : K} (m : M) (h : c.compareFunc p key = 0) : bucketHash c w m p = bucketHash c w m key :=
  congrArg (·%w.nBuckets m) (c.respects m p key (w.hashKey m) h)

theorem Listed.tail (h : Listed w order) (m : M) : w.iterateListTail m = (order m).getLast? := by
  rw [h.last m,rev,List.head?_reverse]

theorem Listed.length_le (h : Listed w order) (m : M) : (order m).length ≤ w.allocated.length :=
  ((h.iterate.apart.nodup m).subperm (h.allocated m)).length_le

theorem Hashed.not_mem (h : Hashed c w content chain) (he : ∀ m, e ∉ content m) (i : M × ℕ) : e ∉ chain i :=
  fun hi => he i.1 ((h.mem i.1 i.2 e).mp hi).1

/-- What is written into an entry that is in no map, or a key that is equal, leaves the maps as they are. -/
theorem Shape.written [DecidableEq A] (h : Shape c w order) (hkey : ∀ m, e ∈ order m → c.compareFunc (w.key e) key = 0)
    (value : V) : Shape c (setEntry w e key value) order := by
  obtain ⟨hlist,chain,hhash⟩ := h
  refine ⟨⟨hlist.iterate,hlist.first,hlist.last,hlist.count,hlist.allocated⟩,chain,hhash.buckets,hhash.heads,fun m b x => ?_,hhash.pos⟩
  rw [hhash.mem m b x]
  refine and_congr_right fun hx => ?_
  by_cases hxe : x = e
  · subst hxe
    have hsame : bucketHash c (setEntry w x key value) m (update w.key x key x) = bucketHash c w m (w.key x) := by
      rw [update_self]
      exact (bucketHash_eq m (hkey m hx)).symm
    rw [← hsame]
    rfl
  · have hsame : update w.key e key x = w.key x := update_of_ne hxe _ _
    rw [← hsame]
    rfl

theorem Shape.setValue (h : Shape c w order) (value : A → V) : Shape c { w with value := value } order := by
  obtain ⟨hlist,chain,hhash⟩ := h
  exact ⟨⟨hlist.iterate,hlist.first,hlist.last,hlist.count,hlist.allocated⟩,chain,hhash.buckets,hhash.heads,hhash.mem,hhash.pos⟩

/-- Memory that no entry of a map is in may be given back, and more may be taken. -/
theorem Shape.setAllocated (h : Shape c w order) {l : List A} (hl : ∀ m, ∀ e ∈ order m, e ∈ l) (clock : ℕ) :
    Shape c { w with allocated := l, clock := clock } order := by
  obtain ⟨hlist,chain,hhash⟩ := h
  exact ⟨⟨hlist.iterate,hlist.first,hlist.last,hlist.count,hl⟩,chain,hhash.buckets,hhash.heads,hhash.mem,hhash.pos⟩

section Link

variable [DecidableEq M] [DecidableEq A]

theorem unsigned_add (n k : ℕ) : unsigned (unsigned n+k) = unsigned (n+k) := Nat.mod_add_mod _ _ _

theorem Listed.linked (h : Listed w order) (hnew : ∀ j, e ∉ order j) (halloc : e ∈ w.allocated) (m : M) :
    Listed (linkIterate w m e) (update order m (order m ++ [e])) where
  iterate := by
    have hback := h.iterate.pushBack hnew m
    rw [← h.tail] at hback
    exact hback
  first := by
    have hhead := h.first.snoc m e
    rw [← h.tail] at hhead
    exact hhead
  last := by
    rw [rev_update,List.reverse_append]
    exact h.last.cons m e
  count := by
    intro j
    change update w.nEntries m _ j = _
    by_cases hj : j = m
    · subst hj
      rw [update_self,update_self,h.count,unsigned_add,List.length_append]
      rfl
    · rw [update_of_ne hj,update_of_ne hj,h.count]
  allocated := by
    intro j x hx
    rcases (mem_insert (List.perm_append_singleton _ _)).mp hx with hx | ⟨rfl,-⟩
    · exact h.allocated j x hx
    · exact halloc

theorem Listed.unlinked (h : Listed w order) (hm : order m = xs ++ e::ys) :
    Listed (unlinkIterate w m e) (update order m (xs ++ ys)) := by
  have hnext := h.iterate.next m xs e ys hm
  have hprev := h.iterate.prev_of hm
  have hrev : rev order m = ys.reverse ++ e::xs.reverse := by
    rw [rev,hm,List.reverse_append,List.reverse_cons,List.append_assoc]
    rfl
  have hhead := h.first.unlink hm
  have htail := h.last.unlink hrev
  rw [List.getLast?_reverse,List.head?_reverse] at htail
  constructor
  · have hlinks := h.iterate.unlink hm
    rw [unlinkIterate]
    dsimp only
    rw [setAt_self,hnext,hprev]
    exact hlinks
  · rw [unlinkIterate]
    dsimp only
    rw [setAt_self,hnext,hprev]
    exact hhead
  · rw [unlinkIterate,rev_update,List.reverse_append]
    dsimp only
    rw [hnext,hprev]
    exact htail
  · intro j
    change update w.nEntries m _ j = _
    by_cases hj : j = m
    · subst hj
      rw [update_self,update_self,h.count,unsigned_add,hm,List.length_append,List.length_append,List.length_cons]
      have hlen : xs.length+(ys.length+1)+(2^32-1) = xs.length+ys.length+2^32 := by omega
      rw [hlen]
      exact Nat.add_mod_right _ _
    · rw [update_of_ne hj,update_of_ne hj,h.count]
  · intro j x hx
    exact h.allocated j x ((h.iterate.apart.mem_unlinked hm).mp hx).1

theorem Hashed.linked (h : Hashed c w content chain) (hnew : ∀ j, e ∉ content j) (hhash : hash = bucketHash c w m (w.key e)) :
    Hashed c (linkBucket w m e hash) (update content m (content m ++ [e])) (update chain (m,hash) (e::chain (m,hash))) where
  buckets := by
    have hfront := h.buckets.pushFront (h.not_mem hnew) (m,hash)
    rw [← h.heads] at hfront
    exact hfront
  heads := h.heads.cons (m,hash) e
  mem := by
    intro j b x
    rw [mem_insert (List.Perm.refl _),mem_insert (List.perm_append_singleton _ _),h.mem j b x,or_and_right]
    refine or_congr Iff.rfl ⟨?_,?_⟩
    · rintro ⟨rfl,hi⟩
      obtain ⟨rfl,rfl⟩ := Prod.mk.inj hi
      exact ⟨⟨rfl,rfl⟩,hhash.symm⟩
    · rintro ⟨⟨rfl,rfl⟩,hb⟩
      refine ⟨rfl,Prod.ext rfl ?_⟩
      exact hb.symm.trans hhash.symm
  pos := h.pos

theorem Hashed.unlinked (h : Hashed c w content chain) (hapart : Apart content) (hm : content m = xs ++ e::ys)
    (hhash : hash = bucketHash c w m (w.key e)) : ∃ chain', Hashed c (unlinkBucket w m e hash) (update content m (xs ++ ys)) chain' := by
  obtain ⟨us,vs,hi⟩ := List.append_of_mem ((h.mem m hash e).mpr ⟨by rw [hm]; simp,hhash.symm⟩)
  have hnext := h.buckets.next (m,hash) us e vs hi
  have hprev := h.buckets.prev_of hi
  have hlinks := h.buckets.unlink hi
  have hheads := h.heads.unlink hi
  refine ⟨update chain (m,hash) (us ++ vs),?_,?_,fun j b x => ?_,h.pos⟩
  · rw [unlinkBucket]
    dsimp only
    rw [setAt_self,hnext,hprev]
    exact hlinks
  · rw [unlinkBucket]
    dsimp only
    rw [setAt_self,hnext,hprev]
    exact hheads
  · rw [h.buckets.apart.mem_unlinked hi,hapart.mem_unlinked hm,h.mem j b x,and_right_comm]
    rfl

theorem Shape.linked (h : Shape c w order) (hnew : ∀ j, e ∉ order j) (halloc : e ∈ w.allocated)
    (hhash : hash = bucketHash c w m (w.key e)) : Shape c (linkEntry w m e hash) (update order m (order m ++ [e])) := by
  obtain ⟨hlist,chain,hbucket⟩ := h
  have hlinked := hbucket.linked hnew hhash
  have hkept : Listed (linkBucket w m e hash) order := ⟨hlist.iterate,hlist.first,hlist.last,hlist.count,hlist.allocated⟩
  exact ⟨hkept.linked hnew halloc m,_,hlinked.buckets,hlinked.heads,hlinked.mem,hlinked.pos⟩

theorem Shape.unlinked (h : Shape c w order) (hm : order m = xs ++ e::ys) (hhash : hash = bucketHash c w m (w.key e)) :
    Shape c (unlinkEntry w m e hash) (update order m (xs ++ ys)) := by
  obtain ⟨hlist,chain,hbucket⟩ := h
  have hunlinked := hlist.unlinked hm
  have hkept : Hashed c (unlinkIterate w m e) order chain := ⟨hbucket.buckets,hbucket.heads,hbucket.mem,hbucket.pos⟩
  exact ⟨⟨hunlinked.iterate,hunlinked.first,hunlinked.last,hunlinked.count,hunlinked.allocated⟩,
    hkept.unlinked hlist.iterate.apart hm hhash⟩

theorem Shape.removed (h : Shape c w order) (hm : order m = xs ++ e::ys) :
    Shape c (removeEntry c w m e) (update order m (xs ++ ys)) := by
  have hunlinked := h.unlinked hm rfl
  refine hunlinked.setAllocated (fun j x hx => ?_) _
  obtain ⟨hx',hne⟩ := (h.1.iterate.apart.mem_unlinked hm).mp hx
  exact (List.mem_erase_of_ne hne).mpr (h.1.allocated j x hx')

end Link

section Scan

def Distinct (c : Calls M A K Seed) (w : World M A K V Seed) (l : List A) : Prop :=
  l.Pairwise fun a b => c.compareFunc (w.key a) (w.key b) ≠ 0

/-- Lists with the same entries of a property find the same one, where there is at most one. -/
theorem find_congr {l l' : List A} {p : A → Bool} (hmem : ∀ x, p x = true → (x ∈ l ↔ x ∈ l'))
    (hone : ∀ x ∈ l', ∀ y ∈ l', p x = true → p y = true → x = y) : l.find? p = l'.find? p := by
  cases hfound : l.find? p with
  | none =>
    refine (List.find?_eq_none.mpr fun x hx hp => ?_).symm
    exact List.find?_eq_none.mp hfound x ((hmem x hp).mpr hx) hp
  | some x =>
    have hp := List.find?_some hfound
    have hx := (hmem x hp).mp (List.mem_of_find?_eq_some hfound)
    cases hfound' : l'.find? p with
    | none => exact absurd hp (List.find?_eq_none.mp hfound' x hx)
    | some y => exact congrArg some (hone x hx y (List.mem_of_find?_eq_some hfound') hp (List.find?_some hfound'))

theorem Distinct.eq {l : List A} (h : Distinct c w l) {x y : A} (hx : x ∈ l) (hy : y ∈ l)
    (hxk : c.compareFunc (w.key x) key = 0) (hyk : c.compareFunc (w.key y) key = 0) : x = y := by
  have hsymm : Std.Symm fun a b => c.compareFunc (w.key a) (w.key b) ≠ 0 := ⟨fun a b hab hba => hab (c.equivalence.symm hba)⟩
  by_contra hne
  exact List.Pairwise.forall h hx hy hne (c.equivalence.trans hxk (c.equivalence.symm hyk))

theorem hashScan_eq (h : Shape c w order) (hkeys : Distinct c w (order m)) (key : K) :
    hashScan c w m (bucketHash c w m key) key = some ((order m).find? fun e => c.compareFunc (w.key e) key = 0) := by
  obtain ⟨hlist,chain,hhash⟩ := h
  have hlen : (chain (m,bucketHash c w m key)).length ≤ w.allocated.length :=
    ((hhash.buckets.apart.nodup _).subperm fun e he => hlist.allocated m e ((hhash.mem m _ e).mp he).1).length_le
  rw [hashScan,hhash.heads,hhash.buckets.next.find hlen]
  refine congrArg some (find_congr (fun e he => ?_) fun x hx y hy hxk hyk => ?_)
  · rw [hhash.mem m _ e]
    exact and_iff_left (bucketHash_eq m (of_decide_eq_true he))
  · exact hkeys.eq hx hy (of_decide_eq_true hxk) (of_decide_eq_true hyk)

end Scan

end HashEntries
end Udev
