import Mathlib.Algebra.Group.Nat.Defs
import Udev.LinkedChains
import Udev.OrderedMap

/-! Hash maps with their entries in memory. An entry is in the chain of a bucket and in the iteration list of its map,
both through links in the entry. Each field of `struct hashmap_entry` and `struct Hashmap` is a function of the address
of the entry or of the map. Loops go over at most as many entries as there are; one that did not end by then is
`none`. -/
namespace Udev
namespace HashEntries

open LinkedChains Function

/-- What the maps are given: the functions of their keys, the allocator and the random bytes. The results of the last two
depend on how often they have been called. -/
structure Calls (M A K Seed : Type*) where
  hashFunc : M → K → Seed → ℕ
  compareFunc : K → K → ℤ
  malloc : ℕ → List A → A
  randomBytes : ℕ → Seed
  equivalence : Equivalence fun a b => compareFunc a b = 0
  respects : ∀ m a b seed, compareFunc a b = 0 → hashFunc m a seed = hashFunc m b seed
  fresh : ∀ n l, malloc n l ∉ l

structure World (M A K V Seed : Type*) where
  key : A → K
  value : A → V
  bucketNext : A → Option A
  bucketPrevious : A → Option A
  iterateNext : A → Option A
  iteratePrevious : A → Option A
  iterateListHead : M → Option A
  iterateListTail : M → Option A
  buckets : M × ℕ → Option A
  nBuckets : M → ℕ
  nEntries : M → ℕ
  hashKey : M → Seed
  allocated : List A
  clock : ℕ

def unsigned (n : ℕ) : ℕ := n%2^32

/-- `INITIAL_N_BUCKETS` -/
def initialNBuckets : ℕ := 31

def EEXIST : ℤ := 17

def ENOENT : ℤ := 2

variable {M A K V Seed : Type*}

/-- The maps after `hashmap_new`, in a memory with anything else in it. -/
def hashmapNew (w : World M A K V Seed) : World M A K V Seed :=
  { w with
    iterateListHead := fun _ => none
    iterateListTail := fun _ => none
    buckets := fun _ => none
    nBuckets := fun _ => initialNBuckets
    nEntries := fun _ => 0 }

def bucketHash (c : Calls M A K Seed) (w : World M A K V Seed) (m : M) (p : K) : ℕ :=
  c.hashFunc m p (w.hashKey m)%w.nBuckets m

def entry (w : World M A K V Seed) (e : A) : K × V := (w.key e,w.value e)

def hashScan (c : Calls M A K Seed) (w : World M A K V Seed) (m : M) (hash : ℕ) (key : K) : Option (Option A) :=
  find w.bucketNext (fun e => c.compareFunc (w.key e) key = 0) w.allocated.length (w.buckets (m,hash))

def hashmapGet (c : Calls M A K Seed) (w : World M A K V Seed) (m : M) (key : K) : Option (Option V) :=
  (hashScan c w m (bucketHash c w m key) key).map fun e => e.map w.value

def bucketEntries (w : World M A K V Seed) (m : M) (hash : ℕ) : Option (List A) :=
  walk w.bucketNext w.allocated.length (w.buckets (m,hash))

/-- Where `hashmap_iterate` is: `ITERATOR_FIRST`, `ITERATOR_LAST` or at an entry. -/
inductive Iterator (A : Type*)
  | first | last | at (e : A)

def hashmapIterate (w : World M A K V Seed) (m : M) (i : Iterator A) : Option A × Iterator A :=
  let visit (e : A) : Option A × Iterator A := (some e,(w.iterateNext e).elim .last .at)
  match i with
  | .last => (none,.last)
  | .first => (w.iterateListHead m).elim (none,.last) visit
  | .at e => visit e

/-- The entries that at most `n` calls of `hashmap_iterate` visit before one comes to the end. -/
def iterateFrom (w : World M A K V Seed) (m : M) : ℕ → Iterator A → Option (List A)
  | 0, _ => none
  | n+1, i =>
    let r := hashmapIterate w m i
    r.1.elim (some []) fun e => (iterateFrom w m n r.2).map (e::·)

def iterate (w : World M A K V Seed) (m : M) : Option (List A) := iterateFrom w m (w.allocated.length+1) .first

variable [DecidableEq M] [DecidableEq A]

/-- The part of `link_entry` for the chain of the bucket. -/
def linkBucket (w : World M A K V Seed) (m : M) (e : A) (hash : ℕ) : World M A K V Seed :=
  { w with
    bucketNext := update w.bucketNext e (w.buckets (m,hash))
    bucketPrevious := setAt (update w.bucketPrevious e none) (w.buckets (m,hash)) (some e)
    buckets := update w.buckets (m,hash) (some e) }

/-- The part of `link_entry` for the iteration list. -/
def linkIterate (w : World M A K V Seed) (m : M) (e : A) : World M A K V Seed :=
  { w with
    iteratePrevious := update w.iteratePrevious e (w.iterateListTail m)
    iterateNext := setAt (update w.iterateNext e none) (w.iterateListTail m) (some e)
    iterateListHead := if (w.iterateListTail m).isSome then w.iterateListHead else update w.iterateListHead m (some e)
    iterateListTail := update w.iterateListTail m (some e)
    nEntries := update w.nEntries m (unsigned (w.nEntries m+1)) }

def linkEntry (w : World M A K V Seed) (m : M) (e : A) (hash : ℕ) : World M A K V Seed :=
  linkIterate (linkBucket w m e hash) m e

/-- The part of `unlink_entry` for the iteration list. -/
def unlinkIterate (w : World M A K V Seed) (m : M) (e : A) : World M A K V Seed :=
  let previous := setAt w.iteratePrevious (w.iterateNext e) (w.iteratePrevious e)
  { w with
    iteratePrevious := previous
    iterateListTail :=
      if (w.iterateNext e).isSome then w.iterateListTail else update w.iterateListTail m (w.iteratePrevious e)
    iterateNext := setAt w.iterateNext (previous e) (w.iterateNext e)
    iterateListHead := if (previous e).isSome then w.iterateListHead else update w.iterateListHead m (w.iterateNext e)
    nEntries := update w.nEntries m (unsigned (w.nEntries m+(2^32-1))) }

/-- The part of `unlink_entry` for the chain of the bucket, which `resize_buckets` does too. -/
def unlinkBucket (w : World M A K V Seed) (m : M) (e : A) (hash : ℕ) : World M A K V Seed :=
  let previous := setAt w.bucketPrevious (w.bucketNext e) (w.bucketPrevious e)
  { w with
    bucketPrevious := previous
    bucketNext := setAt w.bucketNext (previous e) (w.bucketNext e)
    buckets := if (previous e).isSome then w.buckets else update w.buckets (m,hash) (w.bucketNext e) }

def unlinkEntry (w : World M A K V Seed) (m : M) (e : A) (hash : ℕ) : World M A K V Seed :=
  unlinkBucket (unlinkIterate w m e) m e hash

def removeEntry (c : Calls M A K Seed) (w : World M A K V Seed) (m : M) (e : A) : World M A K V Seed :=
  let w := unlinkEntry w m e (bucketHash c w m (w.key e))
  { w with allocated := w.allocated.erase e }

/-- `e->key = key; e->value = value;` -/
def setEntry (w : World M A K V Seed) (e : A) (key : K) (value : V) : World M A K V Seed :=
  { w with key := update w.key e key, value := update w.value e value }

/-- One entry in the loop of `resize_buckets`, from the old buckets to the new ones. -/
def rehashEntry (c : Calls M A K Seed) (m : M) (nkey : Seed) (size : ℕ) (w : World M A K V Seed) (n : ℕ → Option A) (i : A) :
    World M A K V Seed × (ℕ → Option A) :=
  let w := unlinkBucket w m i (bucketHash c w m (w.key i))
  let newBucket := c.hashFunc m (w.key i) nkey%size
  ({ w with
    bucketNext := update w.bucketNext i (n newBucket)
    bucketPrevious := setAt (update w.bucketPrevious i none) (n newBucket) (some i) },
   update n newBucket (some i))

def rehashFrom (c : Calls M A K Seed) (m : M) (nkey : Seed) (size : ℕ) :
    ℕ → Option A → World M A K V Seed → (ℕ → Option A) → Option (World M A K V Seed × (ℕ → Option A))
  | _, none, w, n => some (w,n)
  | 0, some _, _, _ => none
  | k+1, some i, w, n =>
    let r := rehashEntry c m nkey size w n i
    rehashFrom c m nkey size k (r.1.iterateNext i) r.1 r.2

def resizeBuckets (c : Calls M A K Seed) (w : World M A K V Seed) (m : M) : Option (World M A K V Seed × Bool) :=
  if unsigned (w.nEntries m*4) < unsigned (w.nBuckets m*3) then some (w,false)
  else
    -- (h->n_entries+1)*4-1
    let size := unsigned ((w.nEntries m+1)*4+(2^32-1))
    let nkey := c.randomBytes w.clock
    (rehashFrom c m nkey size w.allocated.length (w.iterateListHead m) { w with clock := w.clock+1 } fun _ => none).map
      fun r => ({ r.1 with
        buckets := fun i => if i.1 = m then r.2 i.2 else r.1.buckets i
        nBuckets := update r.1.nBuckets m size
        hashKey := update r.1.hashKey m nkey },true)

def newEntry (c : Calls M A K Seed) (w : World M A K V Seed) (key : K) (value : V) : A × World M A K V Seed :=
  let e := c.malloc w.clock w.allocated
  (e,{ setEntry w e key value with allocated := e::w.allocated, clock := w.clock+1 })

section Operations

variable [DecidableEq V] (c : Calls M A K Seed) (w : World M A K V Seed)

def hashmapPut (m : M) (key : K) (value : V) : Option (World M A K V Seed × ℤ) :=
  let hash := bucketHash c w m key
  (hashScan c w m hash key).bind fun
    | some e => some (w,if w.value e = value then 0 else -EEXIST)
    | none => (resizeBuckets c w m).map fun r =>
      let hash := if r.2 then bucketHash c r.1 m key else hash
      let new := newEntry c r.1 key value
      (linkEntry new.2 m new.1 hash,1)

def hashmapReplace (m : M) (key : K) (value : V) : Option (World M A K V Seed × ℤ) :=
  (hashScan c w m (bucketHash c w m key) key).bind fun
    | some e => some (setEntry w e key value,0)
    | none => hashmapPut c w m key value

def hashmapUpdate (m : M) (key : K) (value : V) : Option (World M A K V Seed × ℤ) :=
  (hashScan c w m (bucketHash c w m key) key).map fun
    | none => (w,-ENOENT)
    | some e => ({ w with value := update w.value e value },0)

def hashmapRemove (m : M) (key : K) : Option (World M A K V Seed × Option V) :=
  (hashScan c w m (bucketHash c w m key) key).map fun
    | none => (w,none)
    | some e => (removeEntry c w m e,some (w.value e))

def hashmapRemoveAndPut (m : M) (oldKey newKey : K) (value : V) : Option (World M A K V Seed × ℤ) :=
  let oldHash := bucketHash c w m oldKey
  (hashScan c w m oldHash oldKey).bind fun
    | none => some (w,-ENOENT)
    | some e =>
      let newHash := bucketHash c w m newKey
      (hashScan c w m newHash newKey).map fun
        | some _ => (w,-EEXIST)
        | none => (linkEntry (setEntry (unlinkEntry w m e oldHash) e newKey value) m e newHash,0)

def hashmapRemoveAndReplace (m : M) (oldKey newKey : K) (value : V) : Option (World M A K V Seed × ℤ) :=
  let oldHash := bucketHash c w m oldKey
  (hashScan c w m oldHash oldKey).bind fun
    | none => some (w,-ENOENT)
    | some e =>
      let newHash := bucketHash c w m newKey
      (hashScan c w m newHash newKey).map fun k =>
        let w := k.elim w fun k => if e ≠ k then removeEntry c w m k else w
        (linkEntry (setEntry (unlinkEntry w m e oldHash) e newKey value) m e newHash,0)

def moveFrom (m other : M) : ℕ → Option A → World M A K V Seed → Option (World M A K V Seed)
  | _, none, w => some w
  | 0, some _, _ => none
  | k+1, some e, w =>
    let n := w.iterateNext e
    let hash := bucketHash c w m (w.key e)
    (hashScan c w m hash (w.key e)).bind fun
      | some _ => moveFrom m other k n w
      | none => moveFrom m other k n (linkEntry (unlinkEntry w other e (bucketHash c w other (w.key e))) m e hash)

def hashmapMove (m other : M) : Option (World M A K V Seed) :=
  moveFrom c m other w.allocated.length (w.iterateListHead other) w

def hashmapMoveOne (m other : M) (key : K) : Option (World M A K V Seed × ℤ) :=
  let hash := bucketHash c w m key
  (hashScan c w m hash key).bind fun
    | some _ => some (w,-EEXIST)
    | none =>
      let otherHash := bucketHash c w other key
      (hashScan c w other otherHash key).map fun
        | none => (w,-ENOENT)
        | some e => (linkEntry (unlinkEntry w other e otherHash) m e hash,0)

def mergeFrom (m : M) : ℕ → Option A → World M A K V Seed → Option (World M A K V Seed × ℤ)
  | _, none, w => some (w,0)
  | 0, some _, _ => none
  | k+1, some e, w => (hashmapPut c w m (w.key e) (w.value e)).bind fun r =>
    if r.2 < 0 ∧ r.2 ≠ -EEXIST then some r else mergeFrom m k (r.1.iterateNext e) r.1

def hashmapMerge (m other : M) : Option (World M A K V Seed × ℤ) :=
  mergeFrom c m w.allocated.length (w.iterateListHead other) w

end Operations

/-- The calls; where the code takes `NULL` for a map, it may be none. -/
inductive Op (M K V : Type*)
  | put (m : M) (key : K) (value : V)
  | replace (m : M) (key : K) (value : V)
  | update (m : M) (key : K) (value : V)
  | remove (m : Option M) (key : K)
  | removeAndPut (m : Option M) (oldKey newKey : K) (value : V)
  | removeAndReplace (m : Option M) (oldKey newKey : K) (value : V)
  | move (m : M) (other : Option M)
  | moveOne (m : M) (other : Option M) (key : K)
  | merge (m : M) (other : Option M)

inductive Result (V : Type*)
  | code (r : ℤ) | data (value : Option V) | unit
  deriving DecidableEq

section Runs

variable [DecidableEq V] (c : Calls M A K Seed)

def step (w : World M A K V Seed) : Op M K V → Option (World M A K V Seed × Result V)
  | .put m key value => (hashmapPut c w m key value).map fun r => (r.1,.code r.2)
  | .replace m key value => (hashmapReplace c w m key value).map fun r => (r.1,.code r.2)
  | .update m key value => (hashmapUpdate c w m key value).map fun r => (r.1,.code r.2)
  | .remove m key => m.elim (some (w,.data none)) fun m => (hashmapRemove c w m key).map fun r => (r.1,.data r.2)
  | .removeAndPut m oldKey newKey value => m.elim (some (w,.code (-ENOENT))) fun m =>
    (hashmapRemoveAndPut c w m oldKey newKey value).map fun r => (r.1,.code r.2)
  | .removeAndReplace m oldKey newKey value => m.elim (some (w,.code (-ENOENT))) fun m =>
    (hashmapRemoveAndReplace c w m oldKey newKey value).map fun r => (r.1,.code r.2)
  | .move m other => other.elim (some (w,.unit)) fun other => (hashmapMove c w m other).map fun w => (w,.unit)
  | .moveOne m other key => other.elim (some (w,.code 0)) fun other =>
    (hashmapMoveOne c w m other key).map fun r => (r.1,.code r.2)
  | .merge m other => other.elim (some (w,.code 0)) fun other => (hashmapMerge c w m other).map fun r => (r.1,.code r.2)

def run (w : World M A K V Seed) : List (Op M K V) → Option (World M A K V Seed × List (Result V))
  | [] => some (w,[])
  | op::ops => (step c w op).bind fun r => (run r.1 ops).map fun r' => (r'.1,r.2::r'.2)

end Runs

end HashEntries
end Udev
