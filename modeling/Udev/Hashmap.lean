import Mathlib.Data.Int.Notation
import Mathlib.Data.List.GetD
import Mathlib.Data.List.Nodup

/-! The hash table with an iteration list: chains of entries by the hash of their key, and all
entries in the order in which they were put. Which hash function and which hash keys it
uses is not seen from the iteration list. -/
namespace Udev

/-- The fields of `struct Hashmap`. An entry is in one chain and in the iteration list. -/
structure Hashmap (κ α β : Type*) where
  hashKey : κ
  buckets : List (List (α × β))
  iterateList : List (α × β)

namespace Hashmap

def INITIAL_N_BUCKETS : ℕ := 31

def EEXIST : ℤ := 17

variable {κ α β : Type*}

def hashmapNew (key : κ) : Hashmap κ α β := ⟨key,List.replicate INITIAL_N_BUCKETS [],[]⟩

def hashmapGetStrv (h : Hashmap κ α β) : List β := h.iterateList.map (·.2)

variable (hash : α → κ → ℕ)

def bucketHash (h : Hashmap κ α β) (key : α) : ℕ := hash key h.hashKey%h.buckets.length

def linkEntry (h : Hashmap κ α β) (e : α × β) (n : ℕ) : Hashmap κ α β :=
  { h with buckets := h.buckets.modify n (e::·), iterateList := h.iterateList ++ [e] }

def rehash (nkey : κ) (m : ℕ) (n : List (List (α × β))) (entries : List (α × β)) : List (List (α × β)) :=
  entries.foldl (fun n i => n.modify (hash i.1 nkey%m) (i::·)) n

/-- `resize_buckets`, with the random key that it takes when the table is full. -/
def resizeBuckets (h : Hashmap κ α β) (nkey : κ) : Hashmap κ α β :=
  if h.iterateList.length*4 < h.buckets.length*3 then h
  else
    let m := (h.iterateList.length+1)*4-1
    { h with hashKey := nkey, buckets := rehash hash nkey m (List.replicate m []) h.iterateList }

variable {hash} {h : Hashmap κ α β} {nkey : κ} {key : α} {value : β}

/-- The chains hold the entries of the iteration list, each by its hash. -/
structure Hashed (hash : α → κ → ℕ) (h : Hashmap κ α β) : Prop where
  pos : 0 < h.buckets.length
  chains : ∀ n e, e ∈ h.buckets.getD n [] ↔ e ∈ h.iterateList ∧ bucketHash hash h e.1 = n
  keys : (h.iterateList.map (·.1)).Nodup

theorem hashed_new (key : κ) : Hashed hash (hashmapNew key : Hashmap κ α β) where
  pos := by simp [hashmapNew,INITIAL_N_BUCKETS]
  chains := by
    intro n e
    simp only [hashmapNew,List.getD_eq_getElem?_getD,List.getElem?_replicate]
    split <;> simp
  keys := List.nodup_nil

theorem mem_modify {l : List (List (α × β))} {n i : ℕ} {e x : α × β} :
    e ∈ (l.modify n (x::·)).getD i [] ↔ e ∈ l.getD i [] ∨ e = x ∧ i = n ∧ n < l.length := by
  simp only [List.getD_eq_getElem?_getD,List.getElem?_modify]
  by_cases hi : n = i
  · subst hi
    cases hget : l[n]? with
    | none =>
      have hge : l.length ≤ n := List.getElem?_eq_none_iff.mp hget
      simp [Nat.not_lt_of_le hge]
    | some chain =>
      obtain ⟨hlt,-⟩ := List.getElem?_eq_some_iff.mp hget
      simp [hlt,or_comm]
  · simp [hi,Ne.symm hi]

theorem length_rehash (m : ℕ) (n : List (List (α × β))) (entries : List (α × β)) :
    (rehash hash nkey m n entries).length = n.length := by
  induction entries generalizing n with
  | nil => rfl
  | cons i entries ih => exact (ih _).trans (List.length_modify _ _ _)

theorem mem_rehash {m : ℕ} (hm : 0 < m) {n : List (List (α × β))} (hn : n.length = m) {entries : List (α × β)}
    {i : ℕ} {e : α × β} :
    e ∈ (rehash hash nkey m n entries).getD i [] ↔ e ∈ n.getD i [] ∨ e ∈ entries ∧ hash e.1 nkey%m = i := by
  induction entries generalizing n with
  | nil => simp [rehash]
  | cons x entries ih =>
    have hlt : hash x.1 nkey%m < n.length := by
      rw [hn]
      exact Nat.mod_lt _ hm
    rw [show rehash hash nkey m n (x::entries) =
      rehash hash nkey m (n.modify (hash x.1 nkey%m) (x::·)) entries from rfl]
    rw [ih ((List.length_modify _ _ _).trans hn),mem_modify,List.mem_cons,or_assoc]
    refine or_congr_right ?_
    constructor
    · rintro (⟨rfl,rfl,-⟩ | ⟨he,hi⟩)
      · exact ⟨Or.inl rfl,rfl⟩
      · exact ⟨Or.inr he,hi⟩
    · rintro ⟨rfl | he,hi⟩
      · exact Or.inl ⟨rfl,hi.symm,hlt⟩
      · exact Or.inr ⟨he,hi⟩

theorem Hashed.resize (hh : Hashed hash h) (nkey : κ) :
    Hashed hash (resizeBuckets hash h nkey) ∧ (resizeBuckets hash h nkey).iterateList = h.iterateList := by
  rw [resizeBuckets]
  split_ifs
  · exact ⟨hh,rfl⟩
  · have hm : 0 < (h.iterateList.length+1)*4-1 := by omega
    have hlen := @length_rehash κ α β hash nkey ((h.iterateList.length+1)*4-1)
      (List.replicate ((h.iterateList.length+1)*4-1) []) h.iterateList
    rw [List.length_replicate] at hlen
    refine ⟨⟨Nat.lt_of_lt_of_eq hm hlen.symm,?_,hh.keys⟩,rfl⟩
    intro n e
    rw [mem_rehash hm List.length_replicate,bucketHash]
    simp only [hlen]
    refine or_iff_right_of_imp fun he => ?_
    rw [List.getD_eq_getElem?_getD,List.getElem?_replicate] at he
    split at he <;> simp at he

theorem Hashed.link (hh : Hashed hash h) (hkey : key ∉ h.iterateList.map (·.1)) :
    Hashed hash (linkEntry h (key,value) (bucketHash hash h key)) := by
  have hlen : (h.buckets.modify (bucketHash hash h key) ((key,value)::·)).length = h.buckets.length :=
    List.length_modify _ _ _
  have hlt : bucketHash hash h key < h.buckets.length := Nat.mod_lt _ hh.pos
  refine ⟨hlen ▸ hh.pos,?_,?_⟩
  · intro n e
    have hbucket : bucketHash hash (linkEntry h (key,value) (bucketHash hash h key)) e.1 = bucketHash hash h e.1 :=
      congrArg (hash e.1 h.hashKey%·) hlen
    rw [hbucket,linkEntry,mem_modify,hh.chains,List.mem_append,List.mem_singleton]
    constructor
    · rintro (⟨he,hn⟩ | ⟨rfl,rfl,-⟩)
      · exact ⟨Or.inl he,hn⟩
      · exact ⟨Or.inr rfl,rfl⟩
    · rintro ⟨he | rfl,hn⟩
      · exact Or.inl ⟨he,hn⟩
      · exact Or.inr ⟨rfl,hn.symm,hlt⟩
  · rw [linkEntry,List.map_append]
    exact hh.keys.append (List.nodup_singleton _) (by simpa using hkey)

section Put

variable [DecidableEq α]

def hashScan (h : Hashmap κ α β) (n : ℕ) (key : α) : Option (α × β) := (h.buckets.getD n []).find? (·.1 = key)

def hashmapPut (hash : α → κ → ℕ) (h : Hashmap κ α β) (nkey : κ) (key : α) (value : β) : ℤ × Hashmap κ α β :=
  match hashScan h (bucketHash hash h key) key with
  | some _ => (-EEXIST,h)
  | none =>
    let h := resizeBuckets hash h nkey
    (1,linkEntry h (key,value) (bucketHash hash h key))

theorem hashScan_eq_none (hh : Hashed hash h) :
    hashScan h (bucketHash hash h key) key = none ↔ key ∉ h.iterateList.map (·.1) := by
  rw [hashScan,List.find?_eq_none]
  constructor
  · intro hnone hmem
    obtain ⟨e,he,rfl⟩ := List.mem_map.mp hmem
    exact hnone e ((hh.chains _ e).mpr ⟨he,rfl⟩) (by simp)
  · intro hkey e he heq
    have hmem := ((hh.chains _ e).mp he).1
    exact hkey (List.mem_map.mpr ⟨e,hmem,by simpa using heq⟩)

theorem hashmapPut_of_mem (hh : Hashed hash h) (hkey : key ∈ h.iterateList.map (·.1)) :
    hashmapPut hash h nkey key value = (-EEXIST,h) := by
  rw [hashmapPut]
  cases hscan : hashScan h (bucketHash hash h key) key with
  | some e => rfl
  | none => exact absurd hkey ((hashScan_eq_none hh).mp hscan)

theorem hashmapPut_of_not_mem (hh : Hashed hash h) (hkey : key ∉ h.iterateList.map (·.1)) :
    (hashmapPut hash h nkey key value).1 = 1 ∧ Hashed hash (hashmapPut hash h nkey key value).2 ∧
      (hashmapPut hash h nkey key value).2.iterateList = h.iterateList ++ [(key,value)] := by
  obtain ⟨hresize,hlist⟩ := hh.resize nkey
  rw [hashmapPut,(hashScan_eq_none hh).mpr hkey]
  refine ⟨rfl,hresize.link (by rwa [hlist]),?_⟩
  exact congrArg (· ++ [(key,value)]) hlist

/-- The entries that stay of a list of entries that are put: the first one of each key. -/
def keepFirst (l : List (α × β)) (e : α × β) : List (α × β) := if e.1 ∈ l.map (·.1) then l else l ++ [e]

theorem iterateList_hashmapPut (hh : Hashed hash h) (nkey : κ) (e : α × β) :
    Hashed hash (hashmapPut hash h nkey e.1 e.2).2 ∧
      (hashmapPut hash h nkey e.1 e.2).2.iterateList = keepFirst h.iterateList e := by
  rw [keepFirst]
  by_cases hkey : e.1 ∈ h.iterateList.map (·.1)
  · rw [hashmapPut_of_mem hh hkey,if_pos hkey]
    exact ⟨hh,rfl⟩
  · rw [if_neg hkey]
    exact (hashmapPut_of_not_mem hh hkey).2

theorem find_keepFirst (l entries : List (α × β)) (key : α) :
    (entries.foldl keepFirst l).find? (·.1 = key) = (l ++ entries).find? (·.1 = key) := by
  induction entries generalizing l with
  | nil => simp
  | cons e entries ih =>
    rw [List.foldl_cons,ih,keepFirst]
    split_ifs with hmem
    · rw [List.find?_append,List.find?_append,List.find?_cons]
      by_cases hkey : e.1 = key
      · obtain ⟨x,hx,heq⟩ := List.mem_map.mp hmem
        have hsome : (l.find? (·.1 = key)).isSome = true :=
          List.find?_isSome.mpr ⟨x,hx,by simpa using heq.trans hkey⟩
        obtain ⟨y,hy⟩ := Option.isSome_iff_exists.mp hsome
        rw [hy]
        rfl
      · simp [hkey]
    · rw [List.append_assoc]
      rfl

end Put

end Hashmap
end Udev
