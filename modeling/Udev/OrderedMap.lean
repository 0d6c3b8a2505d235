import Mathlib.Data.List.Pairwise
import Mathlib.Data.Setoid.Basic

/-! Finite maps whose entries stand in an order. The keys are compared up to an equivalence, and no two of a map are
equivalent. -/
namespace Udev

structure OrderedMap {K : Type*} (s : Setoid K) (V : Type*) where
  entries : List (K × V)
  keys : entries.Pairwise fun p q => ¬s.r p.1 q.1

namespace OrderedMap

variable {K V : Type*} {s : Setoid K}

theorem ext_entries {o o' : OrderedMap s V} (h : o.entries = o'.entries) : o = o' := by
  cases o
  cases o'
  cases h
  rfl

def empty : OrderedMap s V := ⟨[],.nil⟩

def filter (o : OrderedMap s V) (p : K × V → Bool) : OrderedMap s V := ⟨o.entries.filter p,o.keys.filter p⟩

theorem keys_map {l : List (K × V)} {f : K × V → K × V} (h : l.Pairwise fun p q => ¬s.r p.1 q.1) (hf : ∀ p, s.r (f p).1 p.1) :
    (l.map f).Pairwise fun p q => ¬s.r p.1 q.1 := by
  refine List.Pairwise.map f (fun p q hpq hr => hpq ?_) h
  exact s.iseqv.trans (s.iseqv.symm (hf p)) (s.iseqv.trans hr (hf q))

variable {o o' : OrderedMap s V} {p : K × V} {key : K} {value : V} {xs ys : List (K × V)}

theorem not_equiv (h : o.entries = xs ++ p::ys) (hp : s.r p.1 key) : ∀ q ∈ xs ++ ys, ¬s.r q.1 key := by
  have hkeys := o.keys
  rw [h,List.pairwise_append,List.pairwise_cons] at hkeys
  obtain ⟨-,⟨hbehind,-⟩,hbefore⟩ := hkeys
  intro q hq hr
  rcases List.mem_append.mp hq with hq | hq
  · exact hbefore q hq p List.mem_cons_self (s.iseqv.trans hr (s.iseqv.symm hp))
  · exact hbehind q hq (s.iseqv.trans hp (s.iseqv.symm hr))

variable [DecidableRel s.r]

def find (o : OrderedMap s V) (key : K) : Option (K × V) := o.entries.find? fun p => decide (s.r p.1 key)

def lookup (o : OrderedMap s V) (key : K) : Option V := (o.find key).map (·.2)

def contains (o : OrderedMap s V) (key : K) : Bool := (o.find key).isSome

def erase (o : OrderedMap s V) (key : K) : OrderedMap s V := o.filter fun p => !decide (s.r p.1 key)

theorem erase_entries (o : OrderedMap s V) (key : K) :
    (o.erase key).entries = o.entries.filter fun p => !decide (s.r p.1 key) := rfl

def add (o : OrderedMap s V) (key : K) (value : V) : OrderedMap s V where
  entries := (o.erase key).entries ++ [(key,value)]
  keys := by
    refine List.pairwise_append.mpr ⟨(o.erase key).keys,List.pairwise_singleton _ _,fun p hp q hq => ?_⟩
    rw [List.mem_singleton.mp hq]
    simpa using (List.mem_filter.mp hp).2

theorem add_entries (o : OrderedMap s V) (key : K) (value : V) :
    (o.add key value).entries = (o.erase key).entries ++ [(key,value)] := rfl

/-- The key and the value at the place of the entry. -/
def replace (o : OrderedMap s V) (key : K) (value : V) : OrderedMap s V where
  entries := o.entries.map fun p => if s.r p.1 key then (key,value) else p
  keys := keys_map o.keys fun p => by
    by_cases hp : s.r p.1 key
    · rw [if_pos hp]
      exact s.iseqv.symm hp
    · rw [if_neg hp]

/-- The value at the place of the entry; the key is kept. -/
def update (o : OrderedMap s V) (key : K) (value : V) : OrderedMap s V where
  entries := o.entries.map fun p => if s.r p.1 key then (p.1,value) else p
  keys := keys_map o.keys fun p => by
    by_cases hp : s.r p.1 key
    · rw [if_pos hp]
    · rw [if_neg hp]

theorem find_eq_none : o.find key = none ↔ ∀ p ∈ o.entries, ¬s.r p.1 key := by
  rw [find,List.find?_eq_none]
  simp only [decide_eq_true_eq]

theorem contains_iff : o.contains key = true ↔ ∃ p ∈ o.entries, s.r p.1 key := by
  rw [contains,Option.isSome_iff_ne_none,Ne,find_eq_none]
  push Not
  rfl

/-- The entries of the first map, and those of the second whose keys it has not. -/
def union (o o' : OrderedMap s V) : OrderedMap s V where
  entries := o.entries ++ o'.entries.filter fun p => !o.contains p.1
  keys := by
    refine List.pairwise_append.mpr ⟨o.keys,o'.keys.filter _,fun p hp q hq hr => ?_⟩
    have hq' := (List.mem_filter.mp hq).2
    rw [Bool.not_eq_true',← Bool.not_eq_true] at hq'
    exact hq' (contains_iff.mpr ⟨p,hp,hr⟩)

theorem union_entries (o o' : OrderedMap s V) :
    (o.union o').entries = o.entries ++ o'.entries.filter fun p => !o.contains p.1 := rfl

def restrict (o o' : OrderedMap s V) : OrderedMap s V := o.filter fun p => o'.contains p.1

theorem restrict_entries (o o' : OrderedMap s V) : (o.restrict o').entries = o.entries.filter fun p => o'.contains p.1 := rfl

section Place

theorem find_place (h : o.entries = xs ++ p::ys) (hp : s.r p.1 key) : o.find key = some p := by
  have hxs : xs.find? (fun p => decide (s.r p.1 key)) = none :=
    List.find?_eq_none.mpr fun q hq hr => not_equiv h hp q (List.mem_append_left _ hq) (of_decide_eq_true hr)
  rw [find,h,List.find?_append,hxs,Option.none_or]
  exact List.find?_cons_of_pos (decide_eq_true hp)

theorem erase_place (h : o.entries = xs ++ p::ys) (hp : s.r p.1 key) : (o.erase key).entries = xs ++ ys := by
  have hkeep : (xs ++ ys).filter (fun p => !decide (s.r p.1 key)) = xs ++ ys :=
    List.filter_eq_self.mpr fun q hq => by simpa using not_equiv h hp q hq
  rw [List.filter_append] at hkeep
  rw [erase_entries,h,List.filter_append,List.filter_cons_of_neg (by simpa using hp),hkeep]

theorem map_place {f : K × V → K × V} (h : o.entries = xs ++ p::ys) (hp : s.r p.1 key) :
    o.entries.map (fun p => if s.r p.1 key then f p else p) = xs ++ f p::ys := by
  have hkeep : ∀ l : List (K × V), (∀ q ∈ l, q ∈ xs ++ ys) → l.map (fun p => if s.r p.1 key then f p else p) = l := by
    intro l hl
    refine (List.map_congr_left fun q hq => if_neg (not_equiv h hp q (hl q hq))).trans (List.map_id' l)
  rw [h,List.map_append,List.map_cons,if_pos hp,hkeep xs fun q => List.mem_append_left _,hkeep ys fun q => List.mem_append_right _]

theorem replace_place (h : o.entries = xs ++ p::ys) (hp : s.r p.1 key) :
    (o.replace key value).entries = xs ++ (key,value)::ys := map_place h hp

theorem update_place (h : o.entries = xs ++ p::ys) (hp : s.r p.1 key) :
    (o.update key value).entries = xs ++ (p.1,value)::ys := map_place h hp

theorem erase_absent (h : o.find key = none) : o.erase key = o :=
  ext_entries (List.filter_eq_self.mpr fun p hp => by simpa using find_eq_none.mp h p hp)

theorem add_absent (h : o.find key = none) : (o.add key value).entries = o.entries ++ [(key,value)] := by
  rw [add_entries,erase_absent h]

theorem find_erase (o : OrderedMap s V) (key : K) : (o.erase key).find key = none :=
  find_eq_none.mpr fun p hp => by simpa using (List.mem_filter.mp hp).2

theorem find_erase_none {k : K} (h : o.find key = none) : (o.erase k).find key = none :=
  find_eq_none.mpr fun p hp => find_eq_none.mp h p (List.mem_filter.mp hp).1

theorem find_equiv {k : K} (h : o.find key = none) (hk : s.r k key) : o.find k = none :=
  find_eq_none.mpr fun p hp hr => find_eq_none.mp h p hp (s.iseqv.trans hr hk)

theorem add_erase (o : OrderedMap s V) (key k : K) (value : V) : ((o.erase key).erase k).add key value = (o.erase k).add key value := by
  refine ext_entries ?_
  rw [add_entries,add_entries]
  refine congrArg (· ++ [(key,value)]) ?_
  rw [erase_entries,erase_entries,erase_entries,erase_entries,erase_entries,List.filter_filter,List.filter_filter,List.filter_filter]
  refine List.filter_congr fun p _ => ?_
  rw [Bool.and_right_comm,Bool.and_self]

end Place

section Union

theorem contains_add (o : OrderedMap s V) (key : K) (value : V) (k : K) :
    (o.add key value).contains k = true ↔ o.contains k = true ∨ s.r key k := by
  rw [contains_iff,contains_iff]
  constructor
  · rintro ⟨p,hp,hr⟩
    rcases List.mem_append.mp hp with hp | hp
    · exact Or.inl ⟨p,(List.mem_filter.mp hp).1,hr⟩
    · rw [List.mem_singleton.mp hp] at hr
      exact Or.inr hr
  · intro h
    by_cases hkey : s.r key k
    · exact ⟨(key,value),List.mem_append_right _ List.mem_cons_self,hkey⟩
    · obtain ⟨p,hp,hr⟩ := h.resolve_right hkey
      refine ⟨p,List.mem_append_left _ (List.mem_filter.mpr ⟨hp,?_⟩),hr⟩
      rw [Bool.not_eq_true',decide_eq_false_iff_not]
      exact fun hpk => hkey (s.iseqv.trans (s.iseqv.symm hpk) hr)

theorem union_self (h : ∀ p ∈ o'.entries, o.contains p.1 = true) : o.union o' = o := by
  have hnil : o'.entries.filter (fun p => !o.contains p.1) = [] :=
    List.filter_eq_nil_iff.mpr fun p hp => by simp [h p hp]
  exact ext_entries (by rw [union_entries,hnil,List.append_nil])

theorem restrict_self (h : ∀ p ∈ o.entries, o'.contains p.1 = true) : o.restrict o' = o :=
  ext_entries (List.filter_eq_self.mpr h)

theorem contains_other {l : List (K × V)} (h : ∀ q ∈ l, ¬s.r p.1 q.1) : ∀ q ∈ l, (o.add p.1 p.2).contains q.1 = o.contains q.1 := by
  intro q hq
  rw [Bool.eq_iff_iff,contains_add]
  exact or_iff_left (h q hq)

/-- The first entry of a union that is not there yet, put in front of the others. -/
theorem union_add {l : List (K × V)} (h : o'.entries = xs ++ p::ys) (hxs : ∀ q ∈ xs, o.contains q.1 = true)
    (hp : o.find p.1 = none) (hl : l = xs ++ p::ys ∨ l = xs ++ ys) :
    (o.add p.1 p.2).entries ++ l.filter (fun q => !(o.add p.1 p.2).contains q.1) = (o.union o').entries := by
  have hself : (o.add p.1 p.2).contains p.1 = true := (contains_add _ _ _ _).mpr (Or.inr (s.iseqv.refl _))
  have hmono : ∀ q ∈ xs, (o.add p.1 p.2).contains q.1 = true := fun q hq => (contains_add _ _ _ _).mpr (Or.inl (hxs q hq))
  have hkeys := o'.keys
  rw [h,List.pairwise_append,List.pairwise_cons] at hkeys
  have hys := contains_other (o := o) hkeys.2.1.1
  have hfilter : l.filter (fun q => !(o.add p.1 p.2).contains q.1) = ys.filter (fun q => !o.contains q.1) := by
    have hdrop : xs.filter (fun q => !(o.add p.1 p.2).contains q.1) = [] :=
      List.filter_eq_nil_iff.mpr fun q hq => by simp [hmono q hq]
    have hkeep : ys.filter (fun q => !(o.add p.1 p.2).contains q.1) = ys.filter (fun q => !o.contains q.1) :=
      List.filter_congr fun q hq => by rw [hys q hq]
    rcases hl with rfl | rfl
    · rw [List.filter_append,hdrop,List.filter_cons_of_neg (by simp [hself]),hkeep,List.nil_append]
    · rw [List.filter_append,hdrop,hkeep,List.nil_append]
  have hdrop : xs.filter (fun q => !o.contains q.1) = [] := List.filter_eq_nil_iff.mpr fun q hq => by simp [hxs q hq]
  have hnew : o.contains p.1 = false := by
    rw [contains,hp]
    rfl
  rw [hfilter,add_absent hp,union_entries,h,List.filter_append,hdrop,List.filter_cons_of_pos (by simp [hnew]),List.nil_append,
    List.append_assoc]
  rfl

/-- Of the map that the entry is taken from, the same entries stay behind. -/
theorem restrict_add (h : o'.entries = xs ++ p::ys) (hxs : ∀ q ∈ xs, o.contains q.1 = true) (hp : o.find p.1 = none) :
    (o'.erase p.1).restrict (o.add p.1 p.2) = o'.restrict o := by
  have hkeys := o'.keys
  rw [h,List.pairwise_append,List.pairwise_cons] at hkeys
  have hnew : o.contains p.1 = false := by
    rw [contains,hp]
    rfl
  have hys := contains_other (o := o) hkeys.2.1.1
  have hmono : ∀ q ∈ xs, (o.add p.1 p.2).contains q.1 = o.contains q.1 := fun q hq => by
    rw [hxs q hq]
    exact (contains_add _ _ _ _).mpr (Or.inl (hxs q hq))
  refine ext_entries ?_
  rw [restrict_entries,restrict_entries,erase_place h (s.iseqv.refl _),h,List.filter_append,List.filter_append,
    List.filter_cons_of_neg (by simp [hnew])]
  exact congrArg₂ _ (List.filter_congr hmono) (List.filter_congr hys)

end Union

end OrderedMap
end Udev
