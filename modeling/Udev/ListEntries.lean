import Udev.Bisect
import Udev.Ring
import Udev.Runs
import Udev.Decimal
import Udev.Properties
import Udev.UniqueList
import Mathlib.Data.List.Perm.Subperm

/-! The memory of a unique list: the entries are the nodes of a ring, in the order of their
names, and an array points to the same entries for the binary search. Addresses are numbers;
`list->node`, the head of the ring, is at 0. -/
namespace Udev
namespace ListEntries

open Text Decimal Bisect Links

structure EntryList where
  links : Links ℕ
  name : ℕ → CString
  value : ℕ → Option CString
  num : ℕ → ℤ
  /-- `NULL` or the array up to `entries_cur`. -/
  entries : Option (List ℕ)
  entriesMax : ℕ
  /-- The address that is allocated next. -/
  brk : ℕ

def udevListInit : EntryList where
  links := ⟨fun a => a,fun a => a⟩
  name := fun _ => []
  value := fun _ => none
  num := fun _ => 0
  entries := none
  entriesMax := 0
  brk := 1

namespace EntryList

variable (u : EntryList)

def array : List ℕ := u.entries.getD []

/-- `list_search`: the index in the array or the place of the name, counted from -1 down.
The counters are 32-bit numbers. -/
def listSearch (name : CString) : Option ℤ :=
  (bisect (fun first last => (first+last) % 2^32 / 2) (compareAt u.name name u.array 0) u.array.length 0
    u.array.length).map (Sum.elim (fun i : ℕ => toInt32 i) fun first : ℕ => toInt32 (-(first+1)))

def newEntry (name : CString) (value : Option CString) : EntryList :=
  { u with
    name := Function.update u.name u.brk name, value := Function.update u.value u.brk value,
    num := Function.update u.num u.brk 0, brk := u.brk+1 }

def enlarge : EntryList :=
  { u with
    entriesMax :=
      if u.array.length ≥ u.entriesMax then u.entriesMax + if u.entriesMax < 1 then 64 else u.entriesMax
      else u.entriesMax }

/-- `udev_list_entry_insert_before`, and `udev_list_entry_append` before the head. -/
def insertBefore (new next : ℕ) : EntryList :=
  { u with links := u.links.insertBetween new (u.links.prev next) next }

def insertArray (new place : ℕ) : EntryList :=
  { u with entries := some (u.array.take place ++ new::u.array.drop place) }

/-- `udev_list_entry_add`; undefined when the place of a new name does not fit `int`. -/
def udevListEntryAdd (name : CString) (value : Option CString) : Option EntryList :=
  (u.listSearch name).bind fun i : ℤ =>
    if i ≥ 0 then some { u with value := Function.update u.value (u.array.getD i.toNat 0) value }
    else if i = -2^31 then none
    else
      let place := (-i-1).toNat
      let next := if place < u.array.length then u.array.getD place 0 else 0
      some (((u.newEntry name value).enlarge.insertBefore u.brk next).insertArray u.brk place)

def udevListEntryDelete (entry : ℕ) : Option EntryList :=
  let shorter := match u.entries with
    | none => some u
    | some entries => (u.listSearch (u.name entry)).map fun i : ℤ =>
      if i ≥ 0 then { u with entries := some (entries.eraseIdx i.toNat) } else u
  shorter.map fun t => { t with links := t.links.remove entry }

def udevListGetEntry : Option ℕ := if u.links.next 0 = 0 then none else some (u.links.next 0)

def udevListEntryGetNext (entry : ℕ) : Option ℕ :=
  if u.links.next entry = 0 then none else some (u.links.next entry)

def udevListEntryGetByName (name : CString) : Option (Option ℕ) :=
  match u.udevListGetEntry with
  | none => some none
  | some _ => (u.listSearch name).map fun i => if i < 0 then none else u.array[i.toNat]?

def udevListEntrySetNum (entry : ℕ) (num : ℤ) : EntryList := { u with num := Function.update u.num entry num }

/-- The loop of `udev_list_cleanup`. -/
def cleanupLoop : ℕ → EntryList → Option ℕ → Option EntryList
  | _, u, none => some u
  | 0, _, some _ => none
  | fuel+1, u, some entry => (u.udevListEntryDelete entry).bind fun t => cleanupLoop fuel t (u.udevListEntryGetNext entry)

/-- `udev_list_cleanup`; no list has more entries than were allocated. -/
def udevListCleanup : Option EntryList :=
  let u := { u with entries := none, entriesMax := 0 }
  cleanupLoop u.brk u u.udevListGetEntry

/-- The entries from one on, as `udev_list_entry_foreach` meets them. -/
def walk : ℕ → EntryList → Option ℕ → List ℕ
  | _, _, none => []
  | 0, _, some _ => []
  | fuel+1, u, some entry => entry::walk fuel u (u.udevListEntryGetNext entry)

def walked : List ℕ := walk u.brk u u.udevListGetEntry

def entry (a : ℕ) : ListEntry := ⟨u.name a,u.value a,u.num a⟩

def content : UdevList := u.array.map u.entry

end EntryList

open EntryList

/-- The calls on the list; an entry is found by its name. -/
inductive Op
  | add (name : CString) (value : Option CString)
  | delete (name : CString)
  | setNum (name : CString) (num : ℤ)
  | getByName (name : CString)
  | cleanup
  deriving DecidableEq

def step (u : EntryList) : Op → Option EntryList
  | .add name value => u.udevListEntryAdd name value
  | .delete name => (u.udevListEntryGetByName name).bind fun e => e.elim (some u) u.udevListEntryDelete
  | .setNum name num => (u.udevListEntryGetByName name).map fun e => e.elim u fun a => u.udevListEntrySetNum a num
  | .getByName name => (u.udevListEntryGetByName name).map fun _ => u
  | .cleanup => u.udevListCleanup

def stepContent (l : UdevList) : Op → UdevList
  | .add name value => l.add name value
  | .delete name => l.delete name
  | .setNum name num => l.setNum name num
  | .getByName _ => l
  | .cleanup => []

structure Inv (u : EntryList) : Prop where
  ring : Ring u.links 0 u.array
  sorted : u.array.Pairwise (u.name · < u.name ·)
  allocated : ∀ a ∈ u.array, a < u.brk
  positive : 0 < u.brk
  length : u.array.length ≤ 2^31-1

theorem middle_list {size : ℕ} (h : size ≤ 2^31) :
    Middle (fun first last => (first+last) % 2^32 / 2) size := by
  intro first last hlt hle
  simp only
  rw [Nat.mod_eq_of_lt (by omega)]
  omega

section Search

variable {u : EntryList} {name : CString} {l l' : List ℕ} {a : ℕ}

theorem listSearch_found (h : u.array = l ++ a::l') (hlen : u.array.length ≤ 2^31-1) (ha : u.name a = name)
    (hl : ∀ x ∈ l, u.name x < name) (hl' : ∀ x ∈ l', name < u.name x) :
    u.listSearch name = some (l.length : ℤ) := by
  rw [h] at hlen
  have hmiddle : Middle (fun first last => (first+last) % 2^32 / 2) (l ++ a::l').length := middle_list (by omega)
  have hindex : (l.length : ℤ) < 2^31 := by
    rw [List.length_append,List.length_cons] at hlen
    omega
  rw [listSearch,h,bisect_sorted_found ha hl hl' hmiddle,Option.map_some,Sum.elim_inl,
    toInt32_eq (by omega) hindex]

theorem listSearch_place (h : u.array = l ++ l') (hlen : u.array.length ≤ 2^31-1)
    (hl : ∀ x ∈ l, u.name x < name) (hl' : ∀ x ∈ l', name < u.name x) :
    u.listSearch name = some (-((l.length : ℤ)+1)) := by
  rw [h] at hlen
  have hmiddle : Middle (fun first last => (first+last) % 2^32 / 2) (l ++ l').length := middle_list (by omega)
  have hplace : (l.length : ℤ) ≤ 2^31-1 := by
    rw [List.length_append] at hlen
    omega
  rw [listSearch,h,bisect_sorted_place hl hl' hmiddle,Option.map_some,Sum.elim_inr,
    toInt32_eq (by omega) (by omega)]

end Search

section Calls

variable {u : EntryList} {name : CString} {value : Option CString} {l l' : List ℕ} {a : ℕ}

theorem Inv.nodup (hu : Inv u) : u.array.Nodup := (List.nodup_cons.mp hu.ring.nodup).2

theorem Inv.ne_zero (hu : Inv u) : ∀ x ∈ u.array, x ≠ 0 := by
  rintro x hx rfl
  exact (List.nodup_cons.mp hu.ring.nodup).1 hx

theorem Inv.split (hu : Inv u) (name : CString) :
    (∃ l a l', u.array = l ++ a::l' ∧ u.name a = name ∧ (∀ x ∈ l, u.name x < name) ∧ ∀ x ∈ l', name < u.name x) ∨
      ∃ l l', u.array = l ++ l' ∧ (∀ x ∈ l, u.name x < name) ∧ ∀ x ∈ l', name < u.name x :=
  sorted_split hu.sorted name

theorem content_eq (h : u.array = l ++ l') : u.content = l.map u.entry ++ l'.map u.entry := by
  rw [content,h,List.map_append]

theorem add_place_eq (hu : Inv u) (h : u.array = l ++ l') (hlen : u.array.length < 2^31-1)
    (hl : ∀ x ∈ l, u.name x < name) (hl' : ∀ x ∈ l', name < u.name x) :
    u.udevListEntryAdd name value = some { (u.newEntry name value).enlarge with
      links := u.links.insertBetween u.brk (before 0 l) (after 0 l'), entries := some (l ++ u.brk::l') } := by
  have hsearch := listSearch_place h (Nat.le_of_lt hlen) hl hl'
  have hring := hu.ring
  rw [h] at hring
  have hplace : (-(-((l.length : ℤ)+1))-1).toNat = l.length := by omega
  have hneg : ¬(-((l.length : ℤ)+1) ≥ 0) := by omega
  have hint : -((l.length : ℤ)+1) ≠ -2^31 := by
    rw [h,List.length_append] at hlen
    omega
  have hnext : (if l.length < u.array.length then u.array.getD l.length 0 else 0) = after 0 l' := by
    rw [h]
    cases l' with
    | nil => simp [after]
    | cons x l' => simp [after]
  have hprev : u.links.prev (after 0 l') = before 0 l := hring.linked.2
  have harray : ((u.newEntry name value).enlarge.insertBefore u.brk (after 0 l')).array = l ++ l' := h
  rw [udevListEntryAdd,hsearch,Option.bind_some,if_neg hneg,if_neg hint]
  simp only [hplace,hnext]
  rw [insertArray,harray,List.take_left,List.drop_left,← hprev]
  rfl

theorem content_sorted : u.content.Sorted ↔ u.array.Pairwise (u.name · < u.name ·) := List.pairwise_map

theorem map_entry_congr {v : EntryList} {es : List ℕ} (hname : ∀ x ∈ es, v.name x = u.name x)
    (hvalue : ∀ x ∈ es, v.value x = u.value x) (hnum : ∀ x ∈ es, v.num x = u.num x) :
    es.map v.entry = es.map u.entry := by
  refine List.map_congr_left ?_
  intro x hx
  rw [entry,entry,hname x hx,hvalue x hx,hnum x hx]

theorem forall_entry {P : CString → Prop} {es : List ℕ} (h : ∀ x ∈ es, P (u.name x)) :
    ∀ e ∈ es.map u.entry, P e.name := by
  intro e he
  obtain ⟨x,hx,rfl⟩ := List.mem_map.mp he
  exact h x hx

theorem add_place (hu : Inv u) (h : u.array = l ++ l') (hlen : u.array.length < 2^31-1)
    (hl : ∀ x ∈ l, u.name x < name) (hl' : ∀ x ∈ l', name < u.name x) :
    ∃ t, u.udevListEntryAdd name value = some t ∧ Inv t ∧ t.content = u.content.add name value := by
  refine ⟨_,add_place_eq hu h hlen hl hl',?_⟩
  generalize ht : ({ (u.newEntry name value).enlarge with
      links := u.links.insertBetween u.brk (before 0 l) (after 0 l'), entries := some (l ++ u.brk::l') } : EntryList) = t
  have hlinks : t.links = u.links.insertBetween u.brk (before 0 l) (after 0 l') := ht ▸ rfl
  have harray : t.array = l ++ u.brk::l' := ht ▸ rfl
  have hbrk : t.brk = u.brk+1 := ht ▸ rfl
  have hnew : ∀ x ∈ u.array, x ≠ u.brk := fun x hx => Nat.ne_of_lt (hu.allocated x hx)
  have hmap : ∀ es : List ℕ, (∀ x ∈ es, x ∈ u.array) → es.map t.entry = es.map u.entry := by
    intro es hes
    rw [← ht]
    refine map_entry_congr ?_ ?_ ?_
    · intro x hx
      exact Function.update_of_ne (hnew x (hes x hx)) _ _
    · intro x hx
      exact Function.update_of_ne (hnew x (hes x hx)) _ _
    · intro x hx
      exact Function.update_of_ne (hnew x (hes x hx)) _ _
  have hentry : t.entry u.brk = ⟨name,value,0⟩ := by
    simp [← ht,entry,enlarge,newEntry]
  have hcontent : t.content = u.content.add name value := by
    rw [content_eq harray,content_eq h,UdevList.add_place (forall_entry (P := (· < name)) hl) (forall_entry (P := (name < ·)) hl'),List.map_cons,hentry,
      hmap l (fun x hx => h ▸ List.mem_append_left _ hx),hmap l' (fun x hx => h ▸ List.mem_append_right _ hx)]
  refine ⟨⟨?_,?_,?_,?_,?_⟩,hcontent⟩
  · rw [hlinks,harray]
    have hring := hu.ring
    rw [h] at hring
    refine hring.insertBetween ?_
    rw [List.mem_cons,← h]
    rintro (heq | hmem)
    · exact Nat.ne_of_gt hu.positive heq
    · exact hnew _ hmem rfl
  · rw [← content_sorted,hcontent]
    exact (content_sorted.mpr hu.sorted).add _ _
  · intro x hx
    rw [harray,List.mem_append,List.mem_cons,or_left_comm,← List.mem_append,← h] at hx
    rw [hbrk]
    rcases hx with rfl | hx
    · exact Nat.lt_succ_self _
    · exact Nat.lt_succ_of_lt (hu.allocated x hx)
  · rw [hbrk]
    exact Nat.succ_pos _
  · rw [h,List.length_append] at hlen
    rw [harray,List.length_append,List.length_cons]
    omega

theorem Inv.others (hu : Inv u) (h : u.array = l ++ a::l') : (∀ x ∈ l, x ≠ a) ∧ ∀ x ∈ l', x ≠ a := by
  have hnodup := hu.nodup
  rw [h,List.nodup_middle,List.nodup_cons,List.mem_append,not_or] at hnodup
  refine ⟨?_,?_⟩
  · rintro x hx rfl
    exact hnodup.1.1 hx
  · rintro x hx rfl
    exact hnodup.1.2 hx

theorem map_update_value (v : Option CString) {es : List ℕ} (h : ∀ x ∈ es, x ≠ a) :
    es.map { u with value := Function.update u.value a v }.entry = es.map u.entry :=
  map_entry_congr (fun _ _ => rfl) (fun x hx => Function.update_of_ne (h x hx) _ _) fun _ _ => rfl

theorem map_update_num (num : ℤ) {es : List ℕ} (h : ∀ x ∈ es, x ≠ a) :
    es.map { u with num := Function.update u.num a num }.entry = es.map u.entry :=
  map_entry_congr (fun _ _ => rfl) (fun _ _ => rfl) fun x hx => Function.update_of_ne (h x hx) _ _

theorem add_found (hu : Inv u) (h : u.array = l ++ a::l') (ha : u.name a = name)
    (hl : ∀ x ∈ l, u.name x < name) (hl' : ∀ x ∈ l', name < u.name x) :
    ∃ t, u.udevListEntryAdd name value = some t ∧ Inv t ∧ t.content = u.content.add name value := by
  have hget : u.array.getD ((l.length : ℤ)).toNat 0 = a := by
    rw [h]
    simp
  have hadd : u.udevListEntryAdd name value = some { u with value := Function.update u.value a value } := by
    rw [udevListEntryAdd,listSearch_found h hu.length ha hl hl',Option.bind_some,if_pos (by omega),hget]
  obtain ⟨hother,hother'⟩ := hu.others h
  refine ⟨_,hadd,⟨hu.ring,hu.sorted,hu.allocated,hu.positive,hu.length⟩,?_⟩
  rw [content_eq (u := { u with value := Function.update u.value a value }) h,content_eq h,List.map_cons,List.map_cons,
    UdevList.add_found ha (forall_entry (P := (· < name)) hl),map_update_value value hother,
    map_update_value value hother']
  simp [entry]

theorem setNum_found (hu : Inv u) (h : u.array = l ++ a::l') (ha : u.name a = name)
    (hl : ∀ x ∈ l, u.name x < name) (hl' : ∀ x ∈ l', name < u.name x) (num : ℤ) :
    Inv (u.udevListEntrySetNum a num) ∧ (u.udevListEntrySetNum a num).content = u.content.setNum name num := by
  obtain ⟨hother,hother'⟩ := hu.others h
  refine ⟨⟨hu.ring,hu.sorted,hu.allocated,hu.positive,hu.length⟩,?_⟩
  rw [content_eq (u := u.udevListEntrySetNum a num) h,content_eq h,List.map_cons,List.map_cons,
    UdevList.setNum_found ha (UdevList.ne_of_lt (forall_entry (P := (· < name)) hl))
      (UdevList.ne_of_gt (forall_entry (P := (name < ·)) hl')),
    udevListEntrySetNum,map_update_num num hother,map_update_num num hother']
  simp [entry]

theorem delete_found (hu : Inv u) (h : u.array = l ++ a::l') (ha : u.name a = name)
    (hl : ∀ x ∈ l, u.name x < name) (hl' : ∀ x ∈ l', name < u.name x) :
    ∃ t, u.udevListEntryDelete a = some t ∧ Inv t ∧ t.content = u.content.delete name := by
  obtain ⟨entries,hentries⟩ : ∃ es, u.entries = some es := by
    cases he : u.entries with
    | none => simp [array,he] at h
    | some es => exact ⟨es,rfl⟩
  have hes : entries = l ++ a::l' := by simpa [array,hentries] using h
  have herase : (l ++ a::l').eraseIdx ((l.length : ℤ)).toNat = l ++ l' := by
    rw [Int.toNat_natCast,List.eraseIdx_append_of_length_le (Nat.le_refl _)]
    simp
  have hdelete : u.udevListEntryDelete a = some { u with
      entries := some (l ++ l'), links := u.links.remove a } := by
    rw [udevListEntryDelete,hentries]
    simp only [ha,listSearch_found h hu.length ha hl hl',Option.map_some,hes,herase]
    rw [if_pos (by omega)]
  have hmem : ∀ x ∈ l ++ l', x ∈ u.array := by
    intro x hx
    rw [h]
    exact List.mem_append.mpr ((List.mem_append.mp hx).imp_right (List.mem_cons_of_mem _))
  have hcontent : (l ++ l').map u.entry = u.content.delete name := by
    rw [content_eq h,List.map_cons,List.map_append,
      UdevList.delete_found ha (UdevList.ne_of_lt (forall_entry (P := (· < name)) hl))
        (UdevList.ne_of_gt (forall_entry (P := (name < ·)) hl'))]
  have hring := hu.ring
  rw [h] at hring
  refine ⟨_,hdelete,⟨hring.remove,?_,fun x hx => hu.allocated x (hmem x hx),hu.positive,?_⟩,hcontent⟩
  · refine List.Pairwise.sublist ?_ hu.sorted
    rw [h]
    exact List.Sublist.append_left (List.sublist_cons_self _ _) _
  · have hlen := hu.length
    rw [h] at hlen
    simp only [array,Option.getD_some,List.length_append,List.length_cons] at hlen ⊢
    omega

end Calls

section Walk

variable {u : EntryList} {name : CString} {l l' : List ℕ} {a : ℕ}

theorem after_eq_zero (h : 0 ∉ l) : (if after 0 l = 0 then none else some (after 0 l)) = l.head? := by
  cases l with
  | nil => rfl
  | cons x l =>
    have hne : x ≠ 0 := fun he => h (he ▸ List.mem_cons_self)
    simp [after,hne]

theorem udevListGetEntry_eq (h : Ring u.links 0 l) : u.udevListGetEntry = l.head? := by
  rw [udevListGetEntry,h.next_head]
  exact after_eq_zero (List.nodup_cons.mp h.nodup).1

theorem udevListEntryGetNext_eq (h : Ring u.links 0 (l ++ a::l')) : u.udevListEntryGetNext a = l'.head? := by
  have hzero := (List.nodup_cons.mp h.nodup).1
  rw [udevListEntryGetNext,h.next_node]
  exact after_eq_zero fun hmem => hzero (List.mem_append_right _ (List.mem_cons_of_mem _ hmem))

theorem walk_eq (h : Ring u.links 0 (l ++ l')) {fuel : ℕ} (hfuel : l'.length ≤ fuel) : walk fuel u l'.head? = l' := by
  induction l' generalizing l fuel with
  | nil => cases fuel <;> rfl
  | cons a l' ih =>
    rw [List.length_cons] at hfuel
    obtain ⟨fuel,rfl⟩ : ∃ m, fuel = m+1 := ⟨fuel-1,by omega⟩
    rw [List.head?_cons,walk,udevListEntryGetNext_eq h,ih (l := l ++ [a]) (by simpa using h) (by omega)]

theorem Inv.length_le (hu : Inv u) : u.array.length ≤ u.brk := by
  have hsub : u.array ⊆ List.range u.brk := fun x hx => List.mem_range.mpr (hu.allocated x hx)
  simpa using (hu.nodup.subperm hsub).length_le

theorem walked_eq (hu : Inv u) : u.walked = u.array := by
  rw [walked,udevListGetEntry_eq hu.ring]
  exact walk_eq (l := []) hu.ring hu.length_le

theorem cleanupLoop_spec (h : Ring u.links 0 l) (hentries : u.entries = none) {fuel : ℕ} (hfuel : l.length ≤ fuel) :
    ∃ k, cleanupLoop fuel u l.head? = some { u with links := k } ∧ Ring k 0 [] := by
  induction l generalizing u fuel with
  | nil => exact ⟨u.links,by cases fuel <;> rfl,h⟩
  | cons a l ih =>
    rw [List.length_cons] at hfuel
    obtain ⟨fuel,rfl⟩ : ∃ m, fuel = m+1 := ⟨fuel-1,by omega⟩
    have hdelete : u.udevListEntryDelete a = some { u with links := u.links.remove a } := by
      simp only [udevListEntryDelete,hentries,Option.map_some]
    rw [List.head?_cons,cleanupLoop,hdelete,Option.bind_some,udevListEntryGetNext_eq (l := []) h]
    exact ih (u := { u with links := u.links.remove a }) (Ring.remove (l := []) h) hentries (by omega)

theorem cleanup_spec (hu : Inv u) : ∃ t, u.udevListCleanup = some t ∧ Inv t ∧ t.content = [] := by
  generalize hv : ({ u with entries := none, entriesMax := 0 } : EntryList) = v
  have hring : Ring v.links 0 u.array := hv ▸ hu.ring
  have hentries : v.entries = none := hv ▸ rfl
  have hbrk : v.brk = u.brk := hv ▸ rfl
  obtain ⟨k,hk,hempty⟩ := cleanupLoop_spec hring hentries (hbrk ▸ hu.length_le : u.array.length ≤ v.brk)
  have hcleanup : u.udevListCleanup = some { v with links := k } := by
    rw [udevListCleanup,hv,udevListGetEntry_eq hring,hk]
  have harray : ({ v with links := k } : EntryList).array = [] := by rw [array,hentries]; rfl
  refine ⟨_,hcleanup,⟨?_,?_,?_,?_,?_⟩,?_⟩
  · rw [harray]
    exact hempty
  · rw [harray]
    exact .nil
  · simp [harray]
  · exact hbrk ▸ hu.positive
  · simp [harray]
  · rw [content,harray]
    rfl

theorem getByName_found (hu : Inv u) (h : u.array = l ++ a::l') (ha : u.name a = name)
    (hl : ∀ x ∈ l, u.name x < name) (hl' : ∀ x ∈ l', name < u.name x) :
    u.udevListEntryGetByName name = some (some a) := by
  obtain ⟨b,hb⟩ : ∃ b, u.array.head? = some b := by
    rw [h]
    cases l with
    | nil => exact ⟨a,rfl⟩
    | cons x l => exact ⟨x,rfl⟩
  have hneg : ¬(l.length : ℤ) < 0 := by omega
  rw [udevListEntryGetByName,udevListGetEntry_eq hu.ring,hb]
  simp only [listSearch_found h hu.length ha hl hl',Option.map_some]
  rw [if_neg hneg,h]
  simp

theorem getByName_place (hu : Inv u) (h : u.array = l ++ l')
    (hl : ∀ x ∈ l, u.name x < name) (hl' : ∀ x ∈ l', name < u.name x) :
    u.udevListEntryGetByName name = some none := by
  rw [udevListEntryGetByName,udevListGetEntry_eq hu.ring]
  cases u.array.head? with
  | none => rfl
  | some b =>
    simp only [listSearch_place h hu.length hl hl',Option.map_some]
    rw [if_pos (by omega)]

theorem place_ne (h : u.array = l ++ l') (hl : ∀ x ∈ l, u.name x < name) (hl' : ∀ x ∈ l', name < u.name x) :
    ∀ e ∈ u.content, e.name ≠ name := by
  rw [content_eq h]
  intro e he
  rcases List.mem_append.mp he with he | he
  · exact UdevList.ne_of_lt (forall_entry (P := (· < name)) hl) e he
  · exact UdevList.ne_of_gt (forall_entry (P := (name < ·)) hl') e he

end Walk

def ok (u : EntryList) : Op → Prop
  | .add name _ => (∃ a ∈ u.array, u.name a = name) ∨ u.array.length < 2^31-1
  | _ => True

theorem step_spec {u : EntryList} (hu : Inv u) {op : Op} (hok : ok u op) :
    ∃ t, step u op = some t ∧ Inv t ∧ t.content = stepContent u.content op := by
  cases op with
  | add name value =>
    rcases hu.split name with ⟨l,a,l',h,ha,hl,hl'⟩ | ⟨l,l',h,hl,hl'⟩
    · exact add_found hu h ha hl hl'
    · refine add_place hu h ?_ hl hl'
      refine hok.resolve_left ?_
      rintro ⟨a,hmem,rfl⟩
      rw [h] at hmem
      rcases List.mem_append.mp hmem with hmem | hmem
      · exact List.lt_irrefl _ (hl a hmem)
      · exact List.lt_irrefl _ (hl' a hmem)
  | delete name =>
    rcases hu.split name with ⟨l,a,l',h,ha,hl,hl'⟩ | ⟨l,l',h,hl,hl'⟩
    · obtain ⟨t,ht,hspec⟩ := delete_found hu h ha hl hl'
      refine ⟨t,?_,hspec⟩
      rw [step,getByName_found hu h ha hl hl',Option.bind_some,Option.elim_some,ht]
    · refine ⟨u,?_,hu,?_⟩
      · rw [step,getByName_place hu h hl hl',Option.bind_some,Option.elim_none]
      · exact (UdevList.delete_other (place_ne h hl hl')).symm
  | setNum name num =>
    rcases hu.split name with ⟨l,a,l',h,ha,hl,hl'⟩ | ⟨l,l',h,hl,hl'⟩
    · refine ⟨_,?_,setNum_found hu h ha hl hl' num⟩
      rw [step,getByName_found hu h ha hl hl',Option.map_some,Option.elim_some]
    · refine ⟨u,?_,hu,?_⟩
      · rw [step,getByName_place hu h hl hl',Option.map_some,Option.elim_none]
      · exact (UdevList.setNum_other (place_ne h hl hl') num).symm
  | getByName name =>
    rcases hu.split name with ⟨l,a,l',h,ha,hl,hl'⟩ | ⟨l,l',h,hl,hl'⟩
    · exact ⟨u,by rw [step,getByName_found hu h ha hl hl',Option.map_some],hu,rfl⟩
    · exact ⟨u,by rw [step,getByName_place hu h hl hl',Option.map_some],hu,rfl⟩
  | cleanup => exact cleanup_spec hu

theorem inv_init : Inv udevListInit := by
  refine ⟨⟨?_,?_⟩,.nil,?_,Nat.one_pos,Nat.zero_le _⟩
  · exact List.isChain_cons_cons.mpr ⟨⟨rfl,rfl⟩,.singleton 0⟩
  · exact List.nodup_singleton 0
  · intro a ha
    cases ha

theorem run_spec {u : EntryList} (hu : Inv u) {ops : List Op} (hok : Runs.Along step ok u ops) :
    ∃ t, Runs.run step u ops = some t ∧ Inv t ∧ t.content = ops.foldl stepContent u.content := by
  induction ops generalizing u with
  | nil => exact ⟨u,rfl,hu,rfl⟩
  | cons op ops ih =>
    obtain ⟨t,ht,hinv,hcontent⟩ := step_spec hu hok.1
    obtain ⟨v,hv,hinv',hcontent'⟩ := ih hinv (Runs.along_cons ht hok).2
    exact ⟨v,Runs.run_cons_some.mpr ⟨t,ht,hv⟩,hinv',by rw [List.foldl_cons,← hcontent,hcontent']⟩

abbrev NameMap := CString → Option (Option CString × ℤ)

def stepMap (m : NameMap) : Op → NameMap
  | .add name value => Function.update m name (some (value,(m name).elim 0 (·.2)))
  | .delete name => Function.update m name none
  | .setNum name num => Function.update m name ((m name).map fun e => (e.1,num))
  | .getByName _ => m
  | .cleanup => fun _ => none

def toMap (l : UdevList) : NameMap := fun name => (l.getByName name).map fun e => (e.value,e.num)

theorem toMap_step {l : UdevList} (h : l.Sorted) (op : Op) : toMap (stepContent l op) = stepMap (toMap l) op := by
  cases op with
  | add name value =>
    funext n
    by_cases hn : n = name
    · subst hn
      simp only [toMap,stepContent,stepMap,h.getByName_add,Function.update_self,Option.map_some]
      cases l.getByName n <;> rfl
    · simp only [toMap,stepContent,stepMap,Function.update_of_ne hn,UdevList.getByName_add_ne value hn]
  | delete name =>
    funext n
    by_cases hn : n = name
    · subst hn
      simp only [toMap,stepContent,stepMap,UdevList.getByName_delete,Function.update_self,Option.map_none]
    · simp only [toMap,stepContent,stepMap,Function.update_of_ne hn,UdevList.getByName_delete_ne hn]
  | setNum name num =>
    funext n
    by_cases hn : n = name
    · subst hn
      simp only [toMap,stepContent,stepMap,UdevList.getByName_setNum,Function.update_self,Option.map_map]
      rfl
    · simp only [toMap,stepContent,stepMap,Function.update_of_ne hn,UdevList.getByName_setNum_ne num hn]
  | getByName name => rfl
  | cleanup => rfl

theorem sorted_step {l : UdevList} (h : l.Sorted) (op : Op) : (stepContent l op).Sorted := by
  cases op with
  | add name value => exact h.add name value
  | delete name => exact h.delete name
  | setNum name num => exact h.setNum name num
  | getByName name => exact h
  | cleanup => exact .nil

theorem toMap_foldl {l : UdevList} (h : l.Sorted) (ops : List Op) :
    toMap (ops.foldl stepContent l) = ops.foldl stepMap (toMap l) := by
  induction ops generalizing l with
  | nil => rfl
  | cons op ops ih => rw [List.foldl_cons,List.foldl_cons,ih (sorted_step h op),toMap_step h]

/-- What `list_search` returns: the index of the name, or its place counted from -1 down. -/
def Searches (u : EntryList) (name : CString) : Prop :=
  (∃ l a l', u.array = l ++ a::l' ∧ u.name a = name ∧ u.listSearch name = some (l.length : ℤ)) ∨
    ∃ l l', u.array = l ++ l' ∧ (∀ x ∈ l, u.name x < name) ∧ (∀ x ∈ l', name < u.name x) ∧
      u.listSearch name = some (-(l.length : ℤ)-1)

/-- What is seen of the list, by walking it and by asking for a name, is the map. -/
structure Observes (u : EntryList) (m : NameMap) : Prop where
  walk : toMap (u.walked.map u.entry) = m
  getByName : ∀ name, ∃ e, u.udevListEntryGetByName name = some e ∧ e.map (fun a => (u.value a,u.num a)) = m name

theorem Inv.searches {u : EntryList} (hu : Inv u) (name : CString) : Searches u name := by
  rcases hu.split name with ⟨l,a,l',h,ha,hl,hl'⟩ | ⟨l,l',h,hl,hl'⟩
  · exact Or.inl ⟨l,a,l',h,ha,listSearch_found h hu.length ha hl hl'⟩
  · refine Or.inr ⟨l,l',h,hl,hl',?_⟩
    rw [listSearch_place h hu.length hl hl']
    exact congrArg some (by omega)

theorem Inv.observes {u : EntryList} (hu : Inv u) : Observes u (toMap u.content) := by
  refine ⟨by rw [walked_eq hu]; rfl,?_⟩
  intro name
  rcases hu.split name with ⟨l,a,l',h,ha,hl,hl'⟩ | ⟨l,l',h,hl,hl'⟩
  · refine ⟨some a,getByName_found hu h ha hl hl',?_⟩
    have hget : u.content.getByName name = some (u.entry a) := by
      rw [content_eq h,List.map_cons]
      exact UdevList.getByName_found ha (UdevList.ne_of_lt (forall_entry (P := (· < name)) hl))
    rw [toMap,hget]
    rfl
  · refine ⟨none,getByName_place hu h hl hl',?_⟩
    rw [toMap,UdevList.getByName_other (place_ne h hl hl')]
    rfl

/-- A unique list of at most `INT_MAX` entries is a finite map from names to values and
numbers: the ring and the array have the same entries, sorted by name, after any calls. -/
theorem unique_list_map {ops : List Op} (hok : Runs.Along step ok udevListInit ops) :
    ∃ u, Runs.run step udevListInit ops = some u ∧ u.array.Pairwise (u.name · < u.name ·) ∧
      u.walked = u.array ∧ (∀ name, Searches u name) ∧ Observes u (ops.foldl stepMap fun _ => none) := by
  obtain ⟨u,hrun,hinv,hcontent⟩ := run_spec inv_init hok
  refine ⟨u,hrun,hinv.sorted,walked_eq hinv,hinv.searches,?_⟩
  have hmap : toMap u.content = ops.foldl stepMap fun _ => none := by
    rw [hcontent,toMap_foldl (content_sorted.mpr inv_init.sorted)]
    rfl
  exact hmap ▸ hinv.observes

instance decidableOk (u : EntryList) (op : Op) : Decidable (ok u op) :=
  match op with
  | .add name _ => inferInstanceAs (Decidable ((∃ a ∈ u.array, u.name a = name) ∨ u.array.length < 2^31-1))
  | .delete _ | .setNum _ _ | .getByName _ | .cleanup => isTrue trivial

theorem unique_list_map_bus :
    ∃ u, Runs.run step udevListInit [.add (str "ID_BUS") (some (str "ata")),.add (str "DEVNAME") none,
        .setNum (str "ID_BUS") 1,.add (str "ID_BUS") (some (str "usb")),.delete (str "DEVNAME")] = some u ∧
      (∃ a, u.udevListEntryGetByName (str "ID_BUS") = some (some a) ∧ u.value a = some (str "usb") ∧ u.num a = 1) ∧
      u.udevListEntryGetByName (str "DEVNAME") = some none := by
  have hok : Runs.Along step ok udevListInit [.add (str "ID_BUS") (some (str "ata")),.add (str "DEVNAME") none,
      .setNum (str "ID_BUS") 1,.add (str "ID_BUS") (some (str "usb")),.delete (str "DEVNAME")] := by
    decide +kernel
  obtain ⟨u,hrun,-,-,-,hobs⟩ := unique_list_map hok
  obtain ⟨e,he,hmap⟩ := hobs.getByName (str "ID_BUS")
  obtain ⟨e',he',hmap'⟩ := hobs.getByName (str "DEVNAME")
  have hbus : e.map (fun a => (u.value a,u.num a)) = some (some (str "usb"),1) := hmap.trans (by decide +kernel)
  have hname : e'.map (fun a => (u.value a,u.num a)) = none := hmap'.trans (by decide +kernel)
  obtain ⟨a,rfl,ha⟩ := Option.map_eq_some_iff.mp hbus
  obtain rfl := Option.map_eq_none_iff.mp hname
  exact ⟨u,hrun,⟨a,he,congrArg Prod.fst ha,congrArg Prod.snd ha⟩,he'⟩

def digitName : ℕ → ℕ → CString
  | 0, _ => []
  | w+1, n => UInt8.ofNat ((chr '0').toNat+n/10^w)::digitName w (n%10^w)

theorem digitName_lt {w m n : ℕ} (h : m < n) (hn : n < 10^w) : digitName w m < digitName w n := by
  induction w generalizing m n with
  | zero => exact absurd h (by rw [pow_zero] at hn; omega)
  | succ w ih =>
    have hpos : 0 < 10^w := Nat.pow_pos (by decide)
    have hdigit : n/10^w < 10 := Nat.div_lt_of_lt_mul (by rwa [pow_succ] at hn)
    have hle : m/10^w ≤ n/10^w := Nat.div_le_div_right h.le
    rcases hle.lt_or_eq with hlt | heq
    · refine List.Lex.rel (UInt8.lt_iff_toNat_lt.mpr ?_)
      have hzero : (chr '0').toNat = 48 := rfl
      rw [UInt8.toNat_ofNat',UInt8.toNat_ofNat',hzero,Nat.mod_eq_of_lt (by omega),Nat.mod_eq_of_lt (by omega)]
      exact Nat.add_lt_add_left hlt _
    · rw [digitName,digitName,heq]
      refine List.Lex.cons (ih ?_ (Nat.mod_lt n hpos))
      have hm := Nat.div_add_mod m (10^w)
      have hn' := Nat.div_add_mod n (10^w)
      rw [heq] at hm
      omega

def numberedName (n : ℕ) : CString := digitName 10 n

theorem numberedName_lt {m n : ℕ} (h : m < n) (hn : n < 2^31) : numberedName m < numberedName n :=
  digitName_lt h (hn.trans (by decide))

theorem run_numberedName (n : ℕ) (hn : n ≤ 2^31-1) :
    ∃ u, Runs.run step udevListInit ((List.range n).map fun i => .add (numberedName i) none) = some u ∧ Inv u ∧
      u.content = (List.range n).map fun i => ⟨numberedName i,none,0⟩ := by
  induction n with
  | zero => exact ⟨_,rfl,inv_init,rfl⟩
  | succ n ih =>
    obtain ⟨u,hrun,hu,hcontent⟩ := ih (Nat.le_of_succ_le hn)
    have hlen : u.array.length = n := by
      have hlength := congrArg List.length hcontent
      simpa [content] using hlength
    have hok : ok u (.add (numberedName n) none) := Or.inr (by omega)
    obtain ⟨t,ht,hinv,hadd⟩ := step_spec hu hok
    refine ⟨t,?_,hinv,?_⟩
    · rw [List.range_succ,List.map_append,Runs.run_append,hrun,Option.bind_some]
      exact Runs.run_cons_some.mpr ⟨t,ht,rfl⟩
    · rw [hadd,hcontent,List.range_succ,List.map_append]
      refine UdevList.add_last ?_
      intro x hx
      obtain ⟨i,hi,rfl⟩ := List.mem_map.mp hx
      exact numberedName_lt (List.mem_range.mp hi) (by omega)

/-- With `INT_MAX` entries in the list the answer about a name behind them is `INT_MIN`, which has no negative. -/
theorem list_search_overflow :
    Runs.run step udevListInit ((List.range (2^31-1+1)).map fun i => .add (numberedName i) none) = none := by
  obtain ⟨u,hrun,hu,hcontent⟩ := run_numberedName (2^31-1) (Nat.le_refl _)
  have hlen : u.array.length = 2^31-1 := by
    have hlength := congrArg List.length hcontent
    rw [content,List.length_map,List.length_map,List.length_range] at hlength
    exact hlength
  have hlt : ∀ x ∈ u.array, u.name x < numberedName (2^31-1) := by
    intro x hx
    have hmem : u.entry x ∈ u.content := List.mem_map_of_mem hx
    rw [hcontent] at hmem
    obtain ⟨i,hi,he⟩ := List.mem_map.mp hmem
    have hname : u.name x = numberedName i := (congrArg ListEntry.name he).symm
    rw [hname]
    exact numberedName_lt (List.mem_range.mp hi) (by decide)
  have hsplit : u.array = u.array ++ [] := (List.append_nil _).symm
  have hsearch := listSearch_place hsplit hu.length hlt (by simp)
  rw [List.range_succ,List.map_append,Runs.run_append,hrun,Option.bind_some]
  have hnone : u.udevListEntryAdd (numberedName (2^31-1)) none = none := by
    rw [udevListEntryAdd,hsearch,hlen,Option.bind_some]
    rfl
  rw [List.map_cons,Runs.run,step,hnone]
  rfl

end ListEntries
end Udev
