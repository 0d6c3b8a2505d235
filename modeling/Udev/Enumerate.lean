import Udev.CString
import Udev.HoldBack
import Udev.Runs
import Mathlib.Data.List.Sort
import Mathlib.Data.List.TakeWhile

/-! The list of an enumeration: the added paths are sorted, duplicates are dropped, md and dm
devices go to the end, and the control node of a sound card goes behind its card. The
array of the paths grows while it is read. -/
namespace Udev
namespace Enumerate

open CString HoldBack

open scoped List

/-- The fields of `struct udev_enumerate` for the devices. The array of the paths is a block
of memory that `realloc` may move. -/
structure UdevEnumerate where
  devicesList : List CString
  devices : List CString
  base : ℕ
  devicesMax : ℕ
  devicesUptodate : Bool

def udevEnumerateNew : UdevEnumerate := ⟨[],[],0,0,false⟩

/-- `syspath_add`; `realloc` gives the address of the larger block. -/
def syspathAdd (realloc : ℕ → ℕ → ℕ) (e : UdevEnumerate) (syspath : CString) : UdevEnumerate :=
  let e :=
    if e.devices.length ≥ e.devicesMax then
      let size := e.devicesMax + if e.devicesMax < 1024 then 1024 else e.devicesMax
      { e with base := realloc e.base size, devicesMax := size }
    else e
  { e with devices := e.devices ++ [syspath], devicesUptodate := false }

def memcmp : CString → CString → ℤ
  | a::as, b::bs => if a = b then memcmp as bs else (a.toNat : ℤ)-b.toNat
  | _, _ => 0

def syspathCmp (path1 path2 : CString) : ℤ :=
  let len := min path1.length path2.length
  let ret := memcmp (path1.take len) (path2.take len)
  if ret = 0 then
    if path1.length < path2.length then -1
    else if path1.length > path2.length then 1
    else ret
  else ret

/-- `qsort_safe` with `syspath_cmp`; equal paths are the same string. -/
def qsort (devices : List CString) : List CString := devices.insertionSort fun p q => syspathCmp p q ≤ 0

def delayDeviceList : List CString := [str "/block/md",str "/block/dm-"]

def devicesDelayEnd (syspath : CString) : Bool :=
  delayDeviceList.any fun device => (strstr (syspath.drop (str "/sys").length) device).isSome

def devicesDelayLater (syspath : CString) : ℕ :=
  match strstr syspath (str "/sound/card") with
  | none => 0
  | some c =>
    let c := (c.drop 11).dropWhile (· ≠ chr '/')
    if startswith c (str "/controlC") then syspath.length-c.length+1 else 0

def strneq (a b : CString) (n : ℕ) : Bool := a.take n = b.take n

/-- The variables of the loop of `udev_enumerate_get_list_entry`. `prev` points into the
array: the address of the block and an index. -/
structure Pass where
  enumerate : UdevEnumerate
  moveLater : Option ℕ
  prev : Option (ℕ × ℕ)
  moveLaterPrefix : ℕ

/-- What a pointer into the array points to; a block that was moved is gone. -/
def deref (e : UdevEnumerate) (pointer : ℕ × ℕ) : Option CString :=
  if pointer.1 = e.base then e.devices[pointer.2]? else none

/-- `udev_list_entry_add` to the list of the devices, which is not unique. -/
def Pass.list (p : Pass) (syspath : CString) : Pass :=
  { p with enumerate := { p.enumerate with devicesList := p.enumerate.devicesList ++ [syspath] } }

def visit (realloc : ℕ → ℕ → ℕ) (p : Pass) (i : ℕ) : Option Pass :=
  let entry := p.enumerate.devices.getD i []
  let prev := match p.prev with
    | none => some none
    | some pointer => (deref p.enumerate pointer).map some
  prev.map fun prev =>
    if prev = some entry then p
    else if devicesDelayEnd entry then
      let enumerate := syspathAdd realloc p.enumerate entry
      { p with enumerate, prev := some (enumerate.base,i) }
    else
      let p := { p with prev := some (p.enumerate.base,i) }
      match p.moveLater with
      | none =>
        let p := { p with moveLaterPrefix := devicesDelayLater entry }
        if p.moveLaterPrefix > 0 then { p with moveLater := some i } else p.list entry
      | some later =>
        let held := p.enumerate.devices.getD later []
        if strneq entry held p.moveLaterPrefix then p.list entry
        else { (p.list held).list entry with moveLater := none }

/-- `udev_enumerate_get_list_entry` -/
def getListEntry (realloc : ℕ → ℕ → ℕ) (e : UdevEnumerate) : Option UdevEnumerate :=
  if e.devicesUptodate then some e
  else
    let e := { e with devicesList := [], devices := qsort e.devices }
    let max := e.devices.length
    ((List.range max).foldlM (visit realloc) ⟨e,none,none,0⟩).map fun p =>
      let p := p.moveLater.elim p fun later => p.list (p.enumerate.devices.getD later [])
      { p.enumerate with
        devicesList := p.enumerate.devicesList ++ p.enumerate.devices.drop max
        devices := p.enumerate.devices.take max
        devicesUptodate := true }

inductive Op
  | addSyspath (syspath : CString)
  | getListEntry

def step (realloc : ℕ → ℕ → ℕ) (e : UdevEnumerate) : Op → Option UdevEnumerate
  | .addSyspath syspath => some (syspathAdd realloc e syspath)
  | .getListEntry => getListEntry realloc e

def added : List Op → List CString
  | [] => []
  | .addSyspath syspath::ops => syspath::added ops
  | .getListEntry::ops => added ops

section Compare

theorem syspathCmp_cons (a b : UInt8) (p q : CString) :
    syspathCmp (a::p) (b::q) = if a = b then syspathCmp p q else (a.toNat : ℤ)-b.toNat := by
  by_cases h : a = b
  · simp [syspathCmp,memcmp,h,Nat.succ_min_succ]
  · have hne : (a.toNat : ℤ)-b.toNat ≠ 0 := by
      have := mt UInt8.toNat_inj.mp h
      omega
    simp [syspathCmp,memcmp,h,hne,Nat.succ_min_succ]

theorem syspathCmp_le_iff (p q : CString) : syspathCmp p q ≤ 0 ↔ p ≤ q := by
  induction p generalizing q with
  | nil =>
    refine iff_of_true ?_ (List.nil_le q)
    cases q <;> simp [syspathCmp,memcmp]
  | cons a p ih =>
    cases q with
    | nil => simp [syspathCmp,memcmp]
    | cons b q =>
      rw [syspathCmp_cons,List.cons_le_cons_iff]
      by_cases h : a = b
      · simp [h,ih]
      · have hne := mt UInt8.toNat_inj.mp h
        have hlt : a < b ↔ a.toNat < b.toNat := UInt8.lt_iff_toNat_lt
        simp only [h,if_false,false_and,or_false,hlt]
        omega

theorem qsort_sorted (l : List CString) : (qsort l).Pairwise (· ≤ ·) := by
  have : Std.Total fun p q => syspathCmp p q ≤ 0 :=
    ⟨fun p q => by simpa only [syspathCmp_le_iff] using List.le_total p q⟩
  have : IsTrans CString fun p q => syspathCmp p q ≤ 0 :=
    ⟨fun p q r => by simpa only [syspathCmp_le_iff] using List.le_trans⟩
  exact (List.pairwise_insertionSort _ l).imp fun h => (syspathCmp_le_iff _ _).mp h

end Compare

section Loop

abbrev mayHold (syspath : CString) : Bool := devicesDelayLater syspath > 0

abbrev stays (held syspath : CString) : Bool := strneq syspath held (devicesDelayLater held)

def distinct : Option CString → List CString → List CString
  | _, [] => []
  | prev, e::l => if prev = some e then distinct prev l else e::distinct (some e) l

/-- The loop after a part of the entries: what was appended, the entry before and the one
that is held. -/
structure Represents (p : Pass) (sorted delayed : List CString) (prev held : Option CString) : Prop where
  devices : p.enumerate.devices = sorted ++ delayed
  prev : p.prev.elim (prev = none) fun pointer =>
    pointer.1 = p.enumerate.base ∧ ∃ e, sorted[pointer.2]? = some e ∧ prev = some e
  held : p.moveLater.elim (held = none) fun later =>
    ∃ h, sorted[later]? = some h ∧ held = some h ∧ p.moveLaterPrefix = devicesDelayLater h

variable {realloc : ℕ → ℕ → ℕ} {p : Pass} {sorted delayed : List CString} {prev held : Option CString}

theorem syspathAdd_devices (realloc : ℕ → ℕ → ℕ) (e : UdevEnumerate) (syspath : CString) :
    (syspathAdd realloc e syspath).devices = e.devices ++ [syspath] ∧
      (syspathAdd realloc e syspath).devicesList = e.devicesList := by
  unfold syspathAdd
  split_ifs <;> exact ⟨rfl,rfl⟩

theorem Represents.get (h : Represents p sorted delayed prev held) {i : ℕ} {entry : CString}
    (hi : sorted[i]? = some entry) : p.enumerate.devices[i]? = some entry := by
  have hlt : i < sorted.length := (List.getElem?_eq_some_iff.mp hi).1
  rw [h.devices,List.getElem?_append_left hlt,hi]

theorem Represents.deref (h : Represents p sorted delayed prev held) :
    (match p.prev with
      | none => some none
      | some pointer => (Enumerate.deref p.enumerate pointer).map some) = some prev := by
  have hprev := h.prev
  cases hp : p.prev with
  | none =>
    rw [hp] at hprev
    exact congrArg some hprev.symm
  | some pointer =>
    rw [hp] at hprev
    obtain ⟨hbase,e,he,rfl⟩ := hprev
    simp only
    rw [Enumerate.deref,if_pos hbase,h.get he]
    rfl

/-- One round drops a duplicate, appends a delayed device or goes on with the entry. -/
theorem visit_spec (h : Represents p sorted delayed prev held) {i : ℕ} {entry : CString}
    (hi : sorted[i]? = some entry) :
    ∃ p', visit realloc p i = some p' ∧
      if prev = some entry then p' = p
      else if devicesDelayEnd entry then
        Represents p' sorted (delayed ++ [entry]) (some entry) held ∧
          p'.enumerate.devicesList = p.enumerate.devicesList
      else
        Represents p' sorted delayed (some entry) (next mayHold stays held entry) ∧
          p'.enumerate.devicesList = p.enumerate.devicesList ++ emit mayHold stays held entry := by
  have hget : ∀ {j : ℕ} {e : CString}, sorted[j]? = some e → p.enumerate.devices.getD j [] = e := by
    intro j e hj
    rw [List.getD_eq_getElem?_getD,h.get hj]
    rfl
  have hprev : ∀ e : UdevEnumerate, (e.base,i).1 = e.base ∧ ∃ x, sorted[(e.base,i).2]? = some x ∧ some entry = some x :=
    fun e => ⟨rfl,entry,hi,rfl⟩
  rw [visit,h.deref]
  simp only [hget hi,Option.map_some,Option.some.injEq,exists_eq_left']
  by_cases hdup : prev = some entry
  · simp only [if_pos hdup]
  · simp only [if_neg hdup]
    by_cases hend : devicesDelayEnd entry = true
    · obtain ⟨hdevices,hlist⟩ := syspathAdd_devices realloc p.enumerate entry
      simp only [if_pos hend]
      refine ⟨⟨?_,hprev _,h.held⟩,hlist⟩
      rw [hdevices,h.devices,List.append_assoc]
    · simp only [hend,Bool.false_eq_true,if_false]
      have hheld := h.held
      cases hlater : p.moveLater with
      | none =>
        rw [hlater] at hheld
        obtain rfl : held = none := hheld
        by_cases hmay : devicesDelayLater entry > 0
        · simp only [next,emit,mayHold,hmay,if_true,decide_true,List.append_nil]
          exact ⟨⟨h.devices,hprev _,⟨entry,hi,rfl,rfl⟩⟩,trivial⟩
        · simp only [next,emit,mayHold,hmay,if_false,decide_false,Bool.false_eq_true]
          exact ⟨⟨h.devices,hprev _,rfl⟩,rfl⟩
      | some later =>
        rw [hlater] at hheld
        obtain ⟨x,hx,rfl,hpre⟩ := hheld
        simp only [hget hx,hpre,next,emit,stays]
        by_cases hstays : strneq entry x (devicesDelayLater x) = true
        · simp only [hstays,if_true]
          exact ⟨⟨h.devices,hprev _,⟨x,hx,rfl,rfl⟩⟩,rfl⟩
        · simp only [hstays,if_false,Bool.false_eq_true]
          exact ⟨⟨h.devices,hprev _,rfl⟩,by simp [Pass.list]⟩

theorem foldlM_visit {x rest : List CString} (h : Represents p sorted delayed prev held) (hs : sorted = x ++ rest) :
    ∃ p' prev' held', (List.range' x.length rest.length).foldlM (visit realloc) p = some p' ∧
      Represents p' sorted (delayed ++ (distinct prev rest).filter (devicesDelayEnd ·)) prev' held' ∧
      p'.enumerate.devicesList ++ held'.toList =
        p.enumerate.devicesList ++ pass mayHold stays held ((distinct prev rest).filter (!devicesDelayEnd ·)) := by
  induction rest generalizing p x delayed prev held with
  | nil => exact ⟨p,prev,held,rfl,by simpa [distinct] using h,rfl⟩
  | cons e rest ih =>
    have he : sorted[x.length]? = some e := by rw [hs]; simp
    have hs' : sorted = (x ++ [e]) ++ rest := by rw [hs]; simp
    obtain ⟨p₁,hp₁,hspec⟩ := @visit_spec realloc _ _ _ _ _ h _ _ he
    rw [List.length_cons,List.range'_succ,List.foldlM_cons,hp₁]
    have hlen : x.length+1 = (x ++ [e]).length := by simp
    rw [hlen,distinct]
    split_ifs at hspec with hdup hend
    · subst hspec
      rw [if_pos hdup]
      exact ih h hs'
    · obtain ⟨p',prev',held',hrun,hrep,hlist⟩ := ih hspec.1 hs'
      rw [if_neg hdup,List.filter_cons_of_pos hend,List.filter_cons_of_neg (by simp [hend])]
      rw [List.append_assoc] at hrep
      exact ⟨p',prev',held',hrun,hrep,by rw [hlist,hspec.2]⟩
    · obtain ⟨p',prev',held',hrun,hrep,hlist⟩ := ih hspec.1 hs'
      rw [if_neg hdup,List.filter_cons_of_neg hend,List.filter_cons_of_pos (by simp [hend]),HoldBack.pass]
      exact ⟨p',prev',held',hrun,hrep,by rw [hlist,hspec.2,List.append_assoc]⟩

end Loop

section Listing

variable {realloc : ℕ → ℕ → ℕ} {devices list : List CString}

def Arranged (list devices : List CString) : Prop :=
  ∃ u : List CString, u.Pairwise (· < ·) ∧ (∀ p, p ∈ u ↔ p ∈ devices) ∧
    list = pass mayHold stays none (u.filter (!devicesDelayEnd ·)) ++ u.filter (devicesDelayEnd ·)

theorem distinct_sorted {prev : Option CString} {l : List CString} (hl : l.Pairwise (· ≤ ·))
    (hprev : ∀ e ∈ prev, ∀ x ∈ l, e ≤ x) :
    (distinct prev l).Pairwise (· < ·) ∧ ∀ x, x ∈ distinct prev l ↔ x ∈ l ∧ prev ≠ some x := by
  induction l generalizing prev with
  | nil => simp [distinct]
  | cons e l ih =>
    obtain ⟨he,hl⟩ := List.pairwise_cons.mp hl
    rw [distinct]
    split_ifs with hdup
    · obtain ⟨hsorted,hmem⟩ := ih hl fun x hx y hy => hprev x hx y (List.mem_cons_of_mem e hy)
      refine ⟨hsorted,fun x => ?_⟩
      rw [hmem,List.mem_cons,hdup]
      refine ⟨fun h => ⟨Or.inr h.1,h.2⟩,fun h => ⟨h.1.resolve_left ?_,h.2⟩⟩
      rintro rfl
      exact h.2 rfl
    · obtain ⟨hsorted,hmem⟩ := @ih (some e) hl (by simpa using he)
      have hlt : ∀ x ∈ distinct (some e) l, e < x := by
        intro x hx
        obtain ⟨hx,hne⟩ := (hmem x).mp hx
        exact Std.lt_of_le_of_ne (he x hx) fun heq => hne (congrArg some heq)
      refine ⟨List.pairwise_cons.mpr ⟨hlt,hsorted⟩,fun x => ?_⟩
      rw [List.mem_cons,hmem,List.mem_cons]
      constructor
      · rintro (rfl | ⟨hx,hne⟩)
        · exact ⟨Or.inl rfl,hdup⟩
        · refine ⟨Or.inr hx,?_⟩
          rintro rfl
          have hle := hprev x rfl e List.mem_cons_self
          exact hne (congrArg some (Std.le_antisymm (he x hx) hle))
      · rintro ⟨rfl | hx,hne⟩
        · exact Or.inl rfl
        · by_cases heq : e = x
          · exact Or.inl heq.symm
          · exact Or.inr ⟨hx,fun h => heq (Option.some.inj h)⟩

theorem getListEntry_spec {e : UdevEnumerate} (he : e.devicesUptodate = false) :
    ∃ e', getListEntry realloc e = some e' ∧ Arranged e'.devicesList e.devices ∧
      (∀ p, p ∈ e'.devices ↔ p ∈ e.devices) := by
  obtain ⟨sorted,hdef⟩ : ∃ l, qsort e.devices = l := ⟨_,rfl⟩
  have hperm : sorted.Perm e.devices := hdef ▸ List.perm_insertionSort _ e.devices
  have hsorted := hdef ▸ qsort_sorted e.devices
  have hinit : Represents ⟨{ e with devicesList := [], devices := sorted },none,none,0⟩ sorted [] none none :=
    ⟨(List.append_nil sorted).symm,rfl,rfl⟩
  obtain ⟨p,prev,held,hrun,hrep,hlist⟩ := @foldlM_visit realloc _ _ _ _ _ [] sorted hinit rfl
  obtain ⟨hstrict,hmem⟩ := @distinct_sorted none sorted hsorted (by simp)
  rw [List.length_nil,← List.range_eq_range'] at hrun
  rw [getListEntry,if_neg (by simp [he])]
  simp only [hdef,hrun,Option.map_some,Option.some.injEq,exists_eq_left']
  have hflush : (p.moveLater.elim p fun later => p.list (p.enumerate.devices.getD later [])).enumerate =
      { p.enumerate with devicesList := p.enumerate.devicesList ++ held.toList } := by
    have hheld := hrep.held
    cases hlater : p.moveLater with
    | none =>
      rw [hlater] at hheld
      obtain rfl : held = none := hheld
      simp
    | some later =>
      rw [hlater] at hheld
      obtain ⟨x,hx,rfl,-⟩ := hheld
      rw [Option.elim_some,List.getD_eq_getElem?_getD,hrep.get hx]
      rfl
  rw [hflush]
  simp only [hlist,hrep.devices,List.nil_append,List.drop_left,List.take_left]
  refine ⟨⟨distinct none sorted,hstrict,fun q => ?_,rfl⟩,fun q => hperm.mem_iff⟩
  rw [hmem,hperm.mem_iff]
  simp

structure Inv (e : UdevEnumerate) (paths : List CString) : Prop where
  devices : ∀ p, p ∈ e.devices ↔ p ∈ paths
  arranged : e.devicesUptodate = true → Arranged e.devicesList paths

theorem Arranged.congr {paths : List CString} (h : Arranged list devices) (hmem : ∀ p, p ∈ devices ↔ p ∈ paths) :
    Arranged list paths := by
  obtain ⟨u,hu,hiff,hlist⟩ := h
  exact ⟨u,hu,fun p => (hiff p).trans (hmem p),hlist⟩

theorem getListEntry_inv {e : UdevEnumerate} {paths : List CString} (h : Inv e paths) :
    ∃ e', getListEntry realloc e = some e' ∧ Inv e' paths ∧ Arranged e'.devicesList paths := by
  cases he : e.devicesUptodate with
  | true => exact ⟨e,if_pos he,h,h.arranged he⟩
  | false =>
    obtain ⟨e',hget,harranged,hmem⟩ := @getListEntry_spec realloc e he
    have hpaths := harranged.congr h.devices
    exact ⟨e',hget,⟨fun p => (hmem p).trans (h.devices p),fun _ => hpaths⟩,hpaths⟩

theorem step_inv {e : UdevEnumerate} {paths : List CString} (h : Inv e paths) (op : Op) :
    ∃ e', step realloc e op = some e' ∧ Inv e' (paths ++ added [op]) := by
  cases op with
  | addSyspath syspath =>
    refine ⟨_,rfl,⟨fun p => ?_,fun hup => ?_⟩⟩
    · rw [(syspathAdd_devices realloc e syspath).1,List.mem_append,h.devices,List.mem_append]
      rfl
    · unfold syspathAdd at hup
      cases hup
  | getListEntry =>
    obtain ⟨e',hget,hinv,-⟩ := @getListEntry_inv realloc e paths h
    exact ⟨e',hget,by simpa [added] using hinv⟩

theorem added_cons (op : Op) (ops : List Op) : added (op::ops) = added [op] ++ added ops := by
  cases op <;> rfl

theorem run_inv (ops : List Op) {e : UdevEnumerate} {paths : List CString} (h : Inv e paths) :
    ∃ e', Runs.run (step realloc) e ops = some e' ∧ Inv e' (paths ++ added ops) := by
  induction ops generalizing e paths with
  | nil => exact ⟨e,rfl,by simpa [added] using h⟩
  | cons op ops ih =>
    obtain ⟨e₁,hstep,hinv⟩ := @step_inv realloc e paths h op
    obtain ⟨e',hrun,hinv'⟩ := ih hinv
    rw [List.append_assoc,← added_cons] at hinv'
    exact ⟨e',Runs.run_cons_some.mpr ⟨e₁,hstep,hrun⟩,hinv'⟩

theorem inv_new : Inv udevEnumerateNew [] := ⟨fun _ => Iff.rfl,fun h => by cases h⟩

theorem run_arranged (realloc : ℕ → ℕ → ℕ) (ops : List Op) :
    ∃ e, Runs.run (step realloc) udevEnumerateNew (ops ++ [.getListEntry]) = some e ∧
      Arranged e.devicesList (added ops) := by
  obtain ⟨e,hrun,hinv⟩ := @run_inv realloc ops _ _ inv_new
  obtain ⟨e',hget,-,harranged⟩ := @getListEntry_inv realloc _ _ hinv
  rw [Runs.run_append,hrun,Option.bind_some]
  exact ⟨e',Runs.run_cons_some.mpr ⟨e',hget,rfl⟩,harranged⟩

end Listing

section Order

/-- The directory `.../sound/cardN`. -/
def CardDir (dir : CString) : Prop := ∃ pre n, dir = pre ++ str "/sound/card" ++ n ∧ chr '/' ∉ n

/-- The control node `.../sound/cardN/controlC*`. -/
def ControlNode (dir syspath : CString) : Prop := CardDir dir ∧ dir ++ str "/controlC" <+: syspath

/-- The path contains `/block/md` or `/block/dm-`. -/
def Delayed (syspath : CString) : Prop := str "/block/md" <:+: syspath ∨ str "/block/dm-" <:+: syspath

theorem length_takeWhile_le {x y : CString} {c : UInt8} : ((x ++ c::y).takeWhile (· ≠ c)).length ≤ x.length := by
  induction x with
  | nil => simp
  | cons b x ih =>
    rw [List.cons_append,List.takeWhile_cons]
    split_ifs
    · exact Nat.succ_le_succ ih
    · exact Nat.zero_le _

/-- The path that is held is that of a control node, and the prefix is the directory of the
first card in the path. -/
theorem devicesDelayLater_spec {syspath : CString} (h : devicesDelayLater syspath > 0) :
    ∃ dir, ControlNode dir syspath ∧ devicesDelayLater syspath = dir.length+1 ∧
      ∀ dir' rest, CardDir dir' → syspath = dir' ++ chr '/'::rest → dir.length ≤ dir'.length := by
  unfold devicesDelayLater at h ⊢
  cases hstr : strstr syspath (str "/sound/card") with
  | none =>
    rw [hstr] at h
    exact absurd h (Nat.lt_irrefl 0)
  | some c =>
    obtain ⟨pre,hsys,⟨t,rfl⟩,hmin⟩ := strstr_eq_some hstr
    have hdrop : (str "/sound/card" ++ t).drop 11 = t := rfl
    have hsplit := List.takeWhile_append_dropWhile (p := (· ≠ chr '/')) (l := t)
    simp only [hstr,hdrop] at h ⊢
    split_ifs at h with hcontrol
    · have hpath : syspath = pre ++ str "/sound/card" ++ t.takeWhile (· ≠ chr '/') ++ t.dropWhile (· ≠ chr '/') := by
        rw [List.append_assoc,hsplit,hsys,List.append_assoc]
      refine ⟨pre ++ str "/sound/card" ++ t.takeWhile (· ≠ chr '/'),⟨⟨pre,_,rfl,?_⟩,?_⟩,?_,?_⟩
      · intro hmem
        simpa using List.mem_takeWhile_imp hmem
      · rw [hpath]
        exact (List.prefix_append_right_inj _).mpr (List.isPrefixOf_iff_prefix.mp hcontrol)
      · rw [if_pos hcontrol]
        have hlen := congrArg List.length hpath
        rw [List.length_append] at hlen
        omega
      · rintro dir' rest ⟨pre',n,rfl,-⟩ heq
        have hle := hmin pre' (str "/sound/card" ++ n ++ chr '/'::rest) (by rw [heq]; simp) ⟨_,(List.append_assoc _ _ _).symm⟩
        have ht : t = ((pre' ++ str "/sound/card" ++ n).drop (pre ++ str "/sound/card").length) ++ chr '/'::rest := by
          have hlong : (pre ++ str "/sound/card").length ≤ (pre' ++ str "/sound/card" ++ n).length := by
            simp only [List.length_append]
            omega
          rw [← List.drop_append_of_le_length hlong,← heq,hsys,← List.append_assoc,List.drop_left]
        have hn : (t.takeWhile (· ≠ chr '/')).length ≤
            ((pre' ++ str "/sound/card" ++ n).drop (pre ++ str "/sound/card").length).length :=
          ht ▸ length_takeWhile_le
        rw [List.length_drop] at hn
        simp only [List.length_append] at hn ⊢
        omega
    · exact absurd h (Nat.lt_irrefl 0)

theorem take_between {k : ℕ} {a b c : CString} (hab : a < b) (hbc : b < c) (h : c.take k = a.take k) :
    b.take k = a.take k := by
  induction k generalizing a b c with
  | zero => rfl
  | succ k ih =>
    cases c with
    | nil => exact absurd hbc (List.not_lt_nil b)
    | cons z c =>
      cases a with
      | nil => cases h
      | cons x a =>
        obtain ⟨rfl,htake⟩ := List.cons.inj h
        cases b with
        | nil => exact absurd hab (List.not_lt_nil _)
        | cons y b =>
          rw [List.cons_lt_cons_iff] at hab hbc
          rcases hab with hab | ⟨rfl,hab⟩
          · rcases hbc with hbc | ⟨rfl,-⟩
            · exact absurd (Std.lt_trans hab hbc) Std.lt_irrefl
            · exact absurd hab Std.lt_irrefl
          · rcases hbc with hbc | ⟨-,hbc⟩
            · exact absurd hbc Std.lt_irrefl
            · rw [List.take_succ_cons,List.take_succ_cons,ih hab hbc htake]

theorem stays_between (a b c : CString) (hab : a < b) (hbc : b < c) (h : stays a c = true) : stays a b = true := by
  simp only [stays,strneq,decide_eq_true_eq] at h ⊢
  exact take_between hab hbc h

theorem delayed_iff {syspath : CString} (h : str "/sys" <+: syspath) : devicesDelayEnd syspath = true ↔ Delayed syspath := by
  obtain ⟨t,rfl⟩ := h
  have hdrop : (str "/sys" ++ t).drop (str "/sys").length = t := List.drop_left
  have hinside : ∀ needle, chr '/'::chr 'b'::needle <:+: str "/sys" ++ t ↔ chr '/'::chr 'b'::needle <:+: t := by
    intro needle
    have hsys : str "/sys" ++ t = chr '/'::chr 's'::chr 'y'::chr 's'::t := rfl
    have h₁ : chr '/' ≠ chr 's' := by decide
    have h₂ : chr '/' ≠ chr 'y' := by decide
    have h₃ : chr 'b' ≠ chr 's' := by decide
    rw [hsys]
    simp [List.infix_cons_iff,List.cons_prefix_cons,h₁,h₂,h₃]
  simp only [devicesDelayEnd,delayDeviceList,List.any_cons,List.any_nil,Bool.or_false,Bool.or_eq_true,hdrop,
    strstr_isSome]
  exact (or_congr (hinside _) (hinside _)).symm

variable {list devices : List CString}

theorem Arranged.nodup (h : Arranged list devices) : list.Nodup ∧ ∀ p, p ∈ list ↔ p ∈ devices := by
  obtain ⟨u,hu,hmem,rfl⟩ := h
  have hperm : (pass mayHold stays none (u.filter (!devicesDelayEnd ·)) ++ u.filter (devicesDelayEnd ·)).Perm u := by
    refine ((pass_perm none _).append_right _).trans ?_
    refine List.perm_append_comm.trans ?_
    exact List.filter_append_perm (devicesDelayEnd ·) u
  have hnodup : u.Nodup := hu.imp fun hlt => Std.ne_of_lt hlt
  exact ⟨hperm.nodup_iff.mpr hnodup,fun p => hperm.mem_iff.trans (hmem p)⟩

def InPlace (devices : List CString) (p : CString) : Prop := p ∈ devices ∧ devicesDelayEnd p = false

section Pairs

variable {p q : CString} (h : Arranged list devices) (hp : p ∈ devices) (hq : q ∈ devices)

include h hp hq

theorem Arranged.order_delayed (hpend : devicesDelayEnd p = false) (hqend : devicesDelayEnd q = true) :
    [p,q] <+ list := by
  obtain ⟨u,hu,hmem,rfl⟩ := h
  have hp' : p ∈ pass mayHold stays none (u.filter (!devicesDelayEnd ·)) :=
    mem_pass.mpr (Or.inr (List.mem_filter.mpr ⟨(hmem p).mpr hp,by simp [hpend]⟩))
  have hq' : q ∈ u.filter (devicesDelayEnd ·) := List.mem_filter.mpr ⟨(hmem q).mpr hq,hqend⟩
  exact (List.singleton_sublist.mpr hp').append (List.singleton_sublist.mpr hq')

theorem Arranged.order_both_delayed (hlt : p < q) (hpend : devicesDelayEnd p = true) (hqend : devicesDelayEnd q = true) :
    [p,q] <+ list := by
  obtain ⟨u,hu,hmem,rfl⟩ := h
  refine (pair_sublist_of_lt (hu.filter _) ?_ ?_ hlt).trans (List.sublist_append_right _ _)
  · exact List.mem_filter.mpr ⟨(hmem p).mpr hp,hpend⟩
  · exact List.mem_filter.mpr ⟨(hmem q).mpr hq,hqend⟩

theorem Arranged.order (hlt : p < q) (hpend : devicesDelayEnd p = false) (hqend : devicesDelayEnd q = false) :
    (Turn mayHold stays (InPlace devices) true p ∧ stays p q = true → [q,p] <+ list) ∧
      (¬(Turn mayHold stays (InPlace devices) true p ∧ stays p q = true) → [p,q] <+ list) := by
  obtain ⟨u,hu,hmem,rfl⟩ := h
  have hS : ∀ e, InPlace devices e ↔ e ∈ u.filter (!devicesDelayEnd ·) := by
    intro e
    simp only [InPlace,List.mem_filter,hmem,Bool.not_eq_true']
  have horder := @pass_sorted _ mayHold _ _ _ _ _ _ _ _ _ (hu.filter _) hS stays_between ⟨hp,hpend⟩ ⟨hq,hqend⟩ hlt
  have hsub := List.sublist_append_left (pass mayHold stays none (u.filter (!devicesDelayEnd ·)))
    (u.filter (devicesDelayEnd ·))
  exact ⟨fun hc => (horder.1.mpr hc).trans hsub,fun hc => (horder.2.mpr hc).trans hsub⟩

end Pairs

theorem lt_append {p : CString} {c : UInt8} {rest : CString} : p < p ++ c::rest := by
  induction p with
  | nil => exact List.Lex.nil
  | cons b p ih => exact List.Lex.cons ih

/-- Whatever is added in between, the list has each added path once; md and dm devices come
after all others, and a device comes before the devices below it unless it is the control
node of a sound card. -/
theorem enumeration_output (realloc : ℕ → ℕ → ℕ) {ops : List Op} (hsys : ∀ p ∈ added ops, str "/sys/" <+: p) :
    ∃ e, Runs.run (step realloc) udevEnumerateNew (ops ++ [.getListEntry]) = some e ∧ e.devicesList.Nodup ∧
      (∀ p, p ∈ e.devicesList ↔ p ∈ added ops) ∧
      (∀ p ∈ e.devicesList, ∀ q ∈ e.devicesList, ¬Delayed p → Delayed q → [p,q] <+ e.devicesList) ∧
      (∀ p ∈ e.devicesList, ∀ q ∈ e.devicesList, p ++ str "/" <+: q → (¬∃ dir, ControlNode dir p) →
        [p,q] <+ e.devicesList) := by
  obtain ⟨e,hrun,harranged⟩ := run_arranged realloc ops
  obtain ⟨hnodup,hmem⟩ := harranged.nodup
  have hend : ∀ p ∈ added ops, devicesDelayEnd p = true ↔ Delayed p := fun p hp =>
    delayed_iff (List.IsPrefix.trans ⟨[chr '/'],rfl⟩ (hsys p hp))
  refine ⟨e,hrun,hnodup,hmem,?_,?_⟩
  · intro p hp q hq hpend hqend
    rw [hmem] at hp hq
    exact harranged.order_delayed hp hq (by simpa using mt (hend p hp).mp hpend) ((hend q hq).mpr hqend)
  · intro p hp q hq hpre hcontrol
    rw [hmem] at hp hq
    have hlt : p < q := by
      obtain ⟨rest,rfl⟩ := hpre
      rw [List.append_assoc]
      exact lt_append
    cases hpend : devicesDelayEnd p with
    | true =>
      have hqend : Delayed q := by
        have hpq : p <:+: q := (List.IsPrefix.trans ⟨_,rfl⟩ hpre).isInfix
        exact ((hend p hp).mp hpend).imp (·.trans hpq) (·.trans hpq)
      exact harranged.order_both_delayed hp hq hlt hpend ((hend q hq).mpr hqend)
    | false =>
      cases hqend : devicesDelayEnd q with
      | true => exact harranged.order_delayed hp hq hpend hqend
      | false =>
        refine (harranged.order hp hq hlt hpend hqend).2 ?_
        rintro ⟨hturn,-⟩
        cases hturn with
        | held _ hmay _ =>
          obtain ⟨dir,hdir,-⟩ := devicesDelayLater_spec (of_decide_eq_true hmay)
          exact hcontrol ⟨dir,hdir⟩

theorem enumeration_output_disks :
    let ops := [.addSyspath (str "/sys/devices/virtual/block/md0"),.addSyspath (str "/sys/devices/a/b"),.getListEntry,
      .addSyspath (str "/sys/devices/a"),.addSyspath (str "/sys/devices/a/b")]
    (∀ p ∈ added ops, str "/sys/" <+: p) ∧
      ∃ e, Runs.run (step fun base size => base+size) udevEnumerateNew (ops ++ [.getListEntry]) = some e ∧
        e.devicesList.Nodup ∧ (∀ p, p ∈ e.devicesList ↔ p ∈ added ops) ∧
        (∀ p ∈ e.devicesList, ∀ q ∈ e.devicesList, ¬Delayed p → Delayed q → [p,q] <+ e.devicesList) ∧
        (∀ p ∈ e.devicesList, ∀ q ∈ e.devicesList, p ++ str "/" <+: q → (¬∃ dir, ControlNode dir p) →
          [p,q] <+ e.devicesList) :=
  ⟨by decide +kernel,enumeration_output _ (by decide +kernel)⟩

end Order

end Enumerate
end Udev
