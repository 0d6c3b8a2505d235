import Udev.Device
import Udev.Runs
import Mathlib.Data.List.Nodup

/-! The event queue of udevd and the test that delays an event behind the
earlier events it depends on. The memo `delaying_seqnum` lets the test skip the
head of the queue; it is shown to give the answer of the full scan. -/
namespace Udev
namespace EventQueue

open Runs CString

inductive EventState
  | undef | queued | running
  deriving DecidableEq, Repr

/-- `struct event`. The number `id` stands for its address, which is never
reused here, so a pointer kept after `free` names no event of the list. -/
structure Event where
  id : ℕ
  state : EventState := .undef
  delayingSeqnum : ℕ := 0
  seqnum : ℕ
  devpath : CString
  devpathOld : Option CString := none
  devnum : UInt64 := 0
  ifindex : ℤ := 0
  isBlock : Bool := false
  deriving DecidableEq, Repr

/-- `event_list`, with the next free address and the last SEQNUM taken in. -/
structure Queue where
  events : List Event := []
  nextId : ℕ := 0
  lastSeqnum : ℕ := 0
  deriving DecidableEq, Repr

def find? (q : Queue) (id : ℕ) : Option Event := q.events.find? (·.id = id)

def update (q : Queue) (id : ℕ) (f : Event → Event) : Queue :=
  { q with events := q.events.map fun e => if e.id = id then f e else e }

def eventQueueInsert (q : Queue) (dev : Device) : Queue where
  events := q.events ++ [{
    id := q.nextId
    state := .queued
    seqnum := dev.seqnum
    devpath := dev.devpath
    devpathOld := dev.devpathOld
    devnum := dev.devnum
    ifindex := dev.ifindex
    isBlock := dev.subsystem = some (str "block") }]
  nextId := q.nextId+1
  lastSeqnum := dev.seqnum

def eventQueueDelete (q : Queue) (id : ℕ) : Queue :=
  { q with events := q.events.filter (·.id ≠ id) }

/-- `undef` matches every event. -/
def eventQueueCleanup (q : Queue) (matchType : EventState) : Queue :=
  { q with events := q.events.filter fun e => matchType ≠ .undef ∧ matchType ≠ e.state }

/-- The conflict tests of the loop body in their order. The value is `none` when
the loop goes on, else whether the test that fired also writes the memo. -/
def conflictTest (e l : Event) : Option Bool :=
  if major e.devnum ≠ 0 ∧ e.devnum = l.devnum ∧ e.isBlock = l.isBlock then some false
  else if e.ifindex ≠ 0 ∧ e.ifindex = l.ifindex then some false
  else if e.devpathOld = some l.devpath then some true
  else
    let common := min l.devpath.length e.devpath.length
    if l.devpath.take common ≠ e.devpath.take common then none
    else if l.devpath.length = e.devpath.length then
      if major e.devnum ≠ 0 ∧ (e.devnum ≠ l.devnum ∨ e.isBlock ≠ l.isBlock) then none
      else if e.ifindex ≠ 0 ∧ e.ifindex ≠ l.ifindex then none
      else some true
    else if charAt e.devpath common = chr '/' then some true
    else if charAt l.devpath common = chr '/' then some true
    else none

/-- The answer for the event and the value left in its `delaying_seqnum`. -/
def isDevpathBusy (e : Event) : List Event → Bool × ℕ
  | [] => (false,e.delayingSeqnum)
  | l::ls =>
    if l.seqnum < e.delayingSeqnum then isDevpathBusy e ls
    else if l.seqnum = e.delayingSeqnum then (true,e.delayingSeqnum)
    else if l.seqnum ≥ e.seqnum then (false,e.delayingSeqnum)
    else
      match conflictTest e l with
      | some memo => (true,if memo then l.seqnum else e.delayingSeqnum)
      | none => isDevpathBusy e ls

def testBusy (q : Queue) (e : Event) : Bool × Queue :=
  let r := isDevpathBusy e q.events
  (r.1,update q e.id fun e => { e with delayingSeqnum := r.2 })

/-- The path `p` is a proper ancestor of `q`, component by component. -/
def Ancestor (p q : CString) : Prop := p ++ [chr '/'] <+: q

/-- When the earlier event `l` has to finish before `e` may run. -/
def Conflicts (e l : Event) : Prop :=
  (major e.devnum ≠ 0 ∧ e.devnum = l.devnum ∧ e.isBlock = l.isBlock) ∨
  (e.ifindex ≠ 0 ∧ e.ifindex = l.ifindex) ∨
  e.devpathOld = some l.devpath ∨
  (Ancestor l.devpath e.devpath ∨ Ancestor e.devpath l.devpath) ∨
  (l.devpath = e.devpath ∧
    ¬(major e.devnum ≠ 0 ∧ ¬(e.devnum = l.devnum ∧ e.isBlock = l.isBlock)) ∧
    ¬(e.ifindex ≠ 0 ∧ e.ifindex ≠ l.ifindex))

/-- The scan of all earlier events, without the memo. -/
def fullScan (e : Event) (es : List Event) : Bool :=
  es.any fun l => l.seqnum < e.seqnum ∧ (conflictTest e l).isSome

theorem charAt_length (s : CString) {n : ℕ} (h : s.length ≤ n) : charAt s n ≠ chr '/' := by
  simp only [charAt,List.getD_eq_getElem?_getD,List.getElem?_eq_none h,Option.getD_none]
  decide

theorem ancestor_length {p q : CString} (h : Ancestor p q) : p.length < q.length := by
  have hl := h.length_le
  simp only [List.length_append,List.length_singleton] at hl
  omega

theorem ancestor_iff (p q : CString) :
    Ancestor p q ↔ p = q.take p.length ∧ charAt q p.length = chr '/' := by
  constructor
  · rintro ⟨r,rfl⟩
    simp [charAt]
  · rintro ⟨ht,hc⟩
    have hlt : p.length < q.length := by
      by_contra h
      exact charAt_length q (by omega) hc
    have hg : q[p.length] = chr '/' := by simpa [charAt,List.getD_eq_getElem?_getD,hlt] using hc
    refine ⟨q.drop (p.length+1),?_⟩
    calc p ++ [chr '/'] ++ q.drop (p.length+1)
        = q.take p.length ++ q[p.length]::q.drop (p.length+1) := by simp [← ht,hg]
      _ = q := by rw [← List.drop_eq_getElem_cons hlt,List.take_append_drop]

theorem path_tests (p q : CString) :
    (p = q ↔ p.take (min p.length q.length) = q.take (min p.length q.length) ∧
      p.length = q.length) ∧
    (Ancestor p q ∨ Ancestor q p ↔ p.take (min p.length q.length) = q.take (min p.length q.length) ∧
      p.length ≠ q.length ∧
      (charAt q (min p.length q.length) = chr '/' ∨ charAt p (min p.length q.length) = chr '/')) := by
  have ha : ∀ p q : CString, q.length ≤ p.length → ¬Ancestor p q := fun p q h hpq =>
    absurd (ancestor_length hpq) (by omega)
  rcases Nat.lt_trichotomy p.length q.length with hlt | heq | hgt
  · have hne : p ≠ q := fun h => by simp [h] at hlt
    simp [Nat.min_eq_left hlt.le,hlt.ne,hne,ha q p hlt.le,ancestor_iff p q,charAt_length p]
  · have h₁ : p.take q.length = p := by rw [← heq,List.take_length]
    simp [heq,h₁,ha p q heq.ge,ha q p heq.le]
  · have hne : p ≠ q := fun h => by simp [h] at hgt
    simp [Nat.min_eq_right hgt.le,hgt.ne',hne,ha p q hgt.le,ancestor_iff q p,charAt_length q,eq_comm]

theorem conflictTest_isSome (e l : Event) : (conflictTest e l).isSome ↔ Conflicts e l := by
  obtain ⟨heq,hanc⟩ := path_tests l.devpath e.devpath
  unfold conflictTest Conflicts
  rw [hanc,heq]
  grind
theorem eq_of_seqnum {es : List Event} (hs : es.Pairwise (·.seqnum < ·.seqnum)) {x y : Event}
    (hx : x ∈ es) (hy : y ∈ es) (h : x.seqnum = y.seqnum) : x = y :=
  List.inj_on_of_nodup_map (List.pairwise_map.mpr (hs.imp fun hlt => Nat.ne_of_lt hlt)) hx hy h

/-- What the memo of `e` says about the events of the list. -/
def MemoOk (es : List Event) (e : Event) : Prop :=
  e.delayingSeqnum < e.seqnum ∧
  ∀ l ∈ es, (l.seqnum < e.delayingSeqnum → conflictTest e l = none) ∧
    (l.seqnum = e.delayingSeqnum → (conflictTest e l).isSome)

structure Inv (q : Queue) : Prop where
  sorted : q.events.Pairwise (·.seqnum < ·.seqnum)
  positive : ∀ e ∈ q.events, 0 < e.seqnum
  bounded : ∀ e ∈ q.events, e.seqnum ≤ q.lastSeqnum
  memo : ∀ e ∈ q.events, MemoOk q.events e

theorem MemoOk.tail {l e : Event} {ls : List Event} (h : MemoOk (l::ls) e) : MemoOk ls e :=
  ⟨h.1,fun x hx => h.2 x (List.mem_cons_of_mem l hx)⟩

theorem isDevpathBusy_fullScan {es : List Event} {e : Event}
    (hs : es.Pairwise (·.seqnum < ·.seqnum)) (hm : MemoOk es e) :
    (isDevpathBusy e es).1 = fullScan e es := by
  induction es with
  | nil => rfl
  | cons l ls ih =>
    obtain ⟨hl,hs'⟩ := List.pairwise_cons.mp hs
    obtain ⟨hskip,hhit⟩ := hm.2 l (by simp)
    have ih' := ih hs' hm.tail
    simp only [isDevpathBusy,fullScan,List.any_cons] at ih' ⊢
    split_ifs with h₁ h₂ h₃
    · simpa [hskip h₁] using ih'
    · have hlt : l.seqnum < e.seqnum := h₂ ▸ hm.1
      simp [hhit h₂,hlt]
    · have hnone : ∀ x ∈ ls, ¬x.seqnum < e.seqnum := fun x hx => by
        have := hl x hx
        omega
      simp only [show ¬l.seqnum < e.seqnum by omega,false_and,decide_false,Bool.false_or]
      rw [eq_comm,List.any_eq_false]
      intro x hx
      simp [hnone x hx]
    · have hlt : l.seqnum < e.seqnum := by omega
      cases hc : conflictTest e l with
      | none => simpa using ih'
      | some memo => simp [hlt]

/-- The memo is either left as it was or set to a conflicting earlier event
behind which no conflict was seen. -/
theorem isDevpathBusy_memo {es : List Event} {e : Event}
    (hs : es.Pairwise (·.seqnum < ·.seqnum)) (hm : MemoOk es e) :
    (isDevpathBusy e es).2 = e.delayingSeqnum ∨
    ∃ l ∈ es, (isDevpathBusy e es).2 = l.seqnum ∧ (conflictTest e l).isSome ∧
      l.seqnum < e.seqnum ∧ ∀ x ∈ es, x.seqnum < l.seqnum → conflictTest e x = none := by
  induction es with
  | nil => exact Or.inl rfl
  | cons l ls ih =>
    obtain ⟨hl,hs'⟩ := List.pairwise_cons.mp hs
    have ih' := ih hs' hm.tail
    have hextend : conflictTest e l = none →
        ((isDevpathBusy e ls).2 = e.delayingSeqnum ∨
          ∃ y ∈ l::ls, (isDevpathBusy e ls).2 = y.seqnum ∧ (conflictTest e y).isSome ∧
            y.seqnum < e.seqnum ∧ ∀ x ∈ l::ls, x.seqnum < y.seqnum → conflictTest e x = none) := by
      intro hn
      rcases ih' with h | ⟨y,hy,h1,h2,h3,h4⟩
      · exact Or.inl h
      · refine Or.inr ⟨y,List.mem_cons_of_mem l hy,h1,h2,h3,fun x hx hxy => ?_⟩
        rcases List.mem_cons.mp hx with rfl | hx
        · exact hn
        · exact h4 x hx hxy
    simp only [isDevpathBusy]
    split_ifs with h₁ h₂ h₃
    · exact hextend ((hm.2 l (by simp)).1 h₁)
    · exact Or.inl rfl
    · exact Or.inl rfl
    · cases hc : conflictTest e l with
      | none => exact hextend hc
      | some memo =>
        cases memo with
        | false => exact Or.inl rfl
        | true =>
          refine Or.inr ⟨l,by simp,by simp,by simp [hc],by omega,fun x hx hxl => ?_⟩
          rcases List.mem_cons.mp hx with rfl | hx
          · omega
          · have := hl x hx
            omega

theorem isDevpathBusy_memoOk {es : List Event} {e : Event}
    (hs : es.Pairwise (·.seqnum < ·.seqnum)) (hm : MemoOk es e) :
    MemoOk es { e with delayingSeqnum := (isDevpathBusy e es).2 } := by
  rcases isDevpathBusy_memo hs hm with h | ⟨l,hl,h1,h2,h3,h4⟩
  · simpa only [h] using hm
  · refine ⟨by simpa only [h1] using h3,fun x hx => ⟨fun hlt => ?_,fun heq => ?_⟩⟩
    · exact h4 x hx (by simpa only [h1] using hlt)
    · have hxl : x.seqnum = l.seqnum := by simpa only [h1] using heq
      exact eq_of_seqnum hs hx hl hxl ▸ h2

def Keeps (f : Event → Event) : Prop :=
  ∀ e, f e = { e with state := (f e).state, delayingSeqnum := (f e).delayingSeqnum }

theorem Keeps.conflictTest {f : Event → Event} (hf : Keeps f) (e l : Event) :
    conflictTest e (f l) = conflictTest e l := by rw [hf l]; rfl

theorem Keeps.conflictTest_left {f : Event → Event} (hf : Keeps f) (e l : Event) :
    EventQueue.conflictTest (f e) l = EventQueue.conflictTest e l := by rw [hf e]; rfl

theorem Keeps.seqnum {f : Event → Event} (hf : Keeps f) (e : Event) : (f e).seqnum = e.seqnum := by
  rw [hf e]

theorem Keeps.id {f : Event → Event} (hf : Keeps f) (e : Event) : (f e).id = e.id := by rw [hf e]

theorem Keeps.ite {f : Event → Event} (hf : Keeps f) (id : ℕ) :
    Keeps fun e => if e.id = id then f e else e := by
  intro e
  dsimp only
  split_ifs
  · exact hf e
  · rfl

theorem keeps_state (f : Event → EventState) : Keeps fun e => { e with state := f e } := fun _ => rfl

theorem keeps_memo (n : ℕ) : Keeps fun e => { e with delayingSeqnum := n } := fun _ => rfl

theorem MemoOk.map {es : List Event} {e : Event} {f : Event → Event} (hf : Keeps f)
    (hm : MemoOk es e) : MemoOk (es.map f) e := by
  refine ⟨hm.1,fun x hx => ?_⟩
  obtain ⟨l,hl,rfl⟩ := List.mem_map.mp hx
  rw [hf.conflictTest,hf.seqnum]
  exact hm.2 l hl

/-- The addresses in the list are distinct and below the next free one. -/
structure Addresses (q : Queue) : Prop where
  distinct : q.events.Pairwise (·.id ≠ ·.id)
  fresh : ∀ e ∈ q.events, e.id < q.nextId

theorem Addresses.eq_of_id {q : Queue} (h : Addresses q) {x y : Event} (hx : x ∈ q.events)
    (hy : y ∈ q.events) (hid : x.id = y.id) : x = y :=
  List.inj_on_of_nodup_map (List.pairwise_map.mpr h.distinct) hx hy hid

theorem Addresses.empty : Addresses {} := ⟨List.Pairwise.nil,by simp⟩

theorem Addresses.insert {q : Queue} (h : Addresses q) (dev : Device) :
    Addresses (eventQueueInsert q dev) where
  distinct := by
    refine List.pairwise_append.mpr ⟨h.distinct,by simp,fun e he l hl => ?_⟩
    simp only [List.mem_singleton] at hl
    exact hl ▸ (h.fresh e he).ne
  fresh e he := by
    rcases List.mem_append.mp he with he | he
    · exact (h.fresh e he).trans (Nat.lt_succ_self _)
    · simp only [List.mem_singleton] at he
      simp [he,eventQueueInsert]

theorem Addresses.filter {q : Queue} (h : Addresses q) (p : Event → Bool) :
    Addresses { q with events := q.events.filter p } where
  distinct := h.distinct.filter p
  fresh e he := h.fresh e (List.mem_of_mem_filter he)

theorem Addresses.update {q : Queue} (h : Addresses q) {f : Event → Event} (hf : Keeps f) (id : ℕ) :
    Addresses (update q id f) := by
  have hid : ∀ e, (if e.id = id then f e else e).id = e.id := (hf.ite id).id
  refine ⟨List.pairwise_map.mpr (h.distinct.imp fun hn => by rwa [hid,hid]),fun e he => ?_⟩
  obtain ⟨l,hl,rfl⟩ := List.mem_map.mp he
  rw [hid]
  exact h.fresh l hl

theorem inv_empty : Inv {} := ⟨List.Pairwise.nil,by simp,by simp,by simp⟩

theorem inv_insert {q : Queue} {dev : Device} (hq : Inv q) (hd : q.lastSeqnum < dev.seqnum) :
    Inv (eventQueueInsert q dev) := by
  have hlt : ∀ e ∈ q.events, e.seqnum < dev.seqnum := fun e he => (hq.bounded e he).trans_lt hd
  refine ⟨?_,?_,?_,?_⟩
  · refine List.pairwise_append.mpr ⟨hq.sorted,by simp,fun e he l hl => ?_⟩
    simp only [List.mem_singleton] at hl
    exact hl ▸ hlt e he
  · intro e he
    rcases List.mem_append.mp he with he | he
    · exact hq.positive e he
    · simp only [List.mem_singleton] at he
      simp only [he]
      omega
  · intro e he
    rcases List.mem_append.mp he with he | he
    · exact (hlt e he).le
    · simp only [List.mem_singleton] at he
      simp [he,eventQueueInsert]
  · intro e he
    rcases List.mem_append.mp he with he | he
    · refine ⟨(hq.memo e he).1,fun l hl => ?_⟩
      rcases List.mem_append.mp hl with hl | hl
      · exact (hq.memo e he).2 l hl
      · simp only [List.mem_singleton] at hl
        have h₁ := (hq.memo e he).1
        have h₂ := hlt e he
        constructor <;> intro h <;> simp only [hl] at h <;> omega
    · simp only [List.mem_singleton] at he
      subst he
      refine ⟨by simp only; omega,fun l hl => ⟨fun h => absurd h (Nat.not_lt_zero _),fun h => ?_⟩⟩
      rcases List.mem_append.mp hl with hl | hl
      · exact absurd h (hq.positive l hl).ne'
      · simp only [List.mem_singleton] at hl
        simp only [hl] at h
        omega

theorem inv_filter {q : Queue} (hq : Inv q) (p : Event → Bool) :
    Inv { q with events := q.events.filter p } where
  sorted := hq.sorted.filter p
  positive e he := hq.positive e (List.mem_of_mem_filter he)
  bounded e he := hq.bounded e (List.mem_of_mem_filter he)
  memo e he := ⟨(hq.memo e (List.mem_of_mem_filter he)).1,fun l hl =>
    (hq.memo e (List.mem_of_mem_filter he)).2 l (List.mem_of_mem_filter hl)⟩

theorem inv_update {q : Queue} {id : ℕ} {f : Event → Event} (hq : Inv q) (hf : Keeps f)
    (hm : ∀ e ∈ q.events, e.id = id → MemoOk q.events (f e)) : Inv (update q id f) := by
  have hg := hf.ite id
  have hmem : ∀ P : Event → Prop, (∀ e ∈ q.events, P (if e.id = id then f e else e)) →
      ∀ e ∈ (update q id f).events, P e := fun P h e he => by
    obtain ⟨l,hl,rfl⟩ := List.mem_map.mp he
    exact h l hl
  refine ⟨?_,hmem _ fun e he => ?_,hmem _ fun e he => ?_,hmem _ fun e he => ?_⟩
  · exact List.pairwise_map.mpr (hq.sorted.imp fun h => by rwa [hg.seqnum,hg.seqnum])
  · rw [hg.seqnum]; exact hq.positive e he
  · rw [hg.seqnum]; exact hq.bounded e he
  · apply MemoOk.map hg
    split_ifs with h
    · exact hm e he h
    · exact hq.memo e he

theorem inv_updateState {q : Queue} {id : ℕ} (hq : Inv q) (st : EventState) :
    Inv (update q id fun e => { e with state := st }) :=
  inv_update hq (keeps_state _) fun e he _ => hq.memo e he

theorem inv_testBusy {q : Queue} {e : Event} (hq : Inv q) (ha : Addresses q) (he : e ∈ q.events) :
    Inv (testBusy q e).2 :=
  inv_update hq (keeps_memo _) fun x hx hxe => by
    rw [ha.eq_of_id hx he hxe]
    exact isDevpathBusy_memoOk hq.sorted (hq.memo e he)

/-- The calls that reach the queue: insertion, the test of any event, the start of
any event, and the deletion of any event. -/
inductive QueueAction
  | insert (dev : Device) | busy (id : ℕ) | start (id : ℕ) | delete (id : ℕ)
  deriving DecidableEq, Repr

def queueStep (q : Queue) : QueueAction → Option Queue
  | .insert dev => some (eventQueueInsert q dev)
  | .busy id => (find? q id).map fun e => (testBusy q e).2
  | .start id => (find? q id).map fun _ => update q id fun e => { e with state := .running }
  | .delete id => (find? q id).map fun _ => eventQueueDelete q id

/-- SEQNUMs are positive and increase from one insertion to the next. -/
def SeqnumIncreases (q : Queue) : QueueAction → Prop
  | .insert dev => q.lastSeqnum < dev.seqnum
  | _ => True

instance (q : Queue) : (a : QueueAction) → Decidable (SeqnumIncreases q a)
  | .insert dev => inferInstanceAs (Decidable (q.lastSeqnum < dev.seqnum))
  | .busy _ | .start _ | .delete _ => isTrue trivial

theorem mem_of_find? {q : Queue} {id : ℕ} {e : Event} (h : find? q id = some e) :
    e ∈ q.events ∧ e.id = id :=
  ⟨List.mem_of_find?_eq_some h,by simpa using List.find?_some h⟩

theorem queueStep_inv {q q' : Queue} {a : QueueAction} (hq : Inv q ∧ Addresses q)
    (ha : SeqnumIncreases q a) (h : queueStep q a = some q') : Inv q' ∧ Addresses q' := by
  obtain ⟨hi,hd⟩ := hq
  cases a with
  | insert dev =>
    cases h
    exact ⟨inv_insert hi ha,hd.insert dev⟩
  | busy id =>
    obtain ⟨e,he,rfl⟩ := Option.map_eq_some_iff.mp h
    exact ⟨inv_testBusy hi hd (mem_of_find? he).1,hd.update (keeps_memo _) _⟩
  | start id =>
    obtain ⟨e,he,rfl⟩ := Option.map_eq_some_iff.mp h
    exact ⟨inv_updateState hi .running,hd.update (keeps_state _) _⟩
  | delete id =>
    obtain ⟨e,he,rfl⟩ := Option.map_eq_some_iff.mp h
    exact ⟨inv_filter hi _,hd.filter _⟩

/-- In every reachable queue the memo gives the answer of the full scan. -/
theorem busy_memo_exact {q : Queue} (as : List QueueAction)
    (hseq : Along queueStep SeqnumIncreases {} as) (hrun : run queueStep {} as = some q)
    {e : Event} (he : e ∈ q.events) : (isDevpathBusy e q.events).1 = fullScan e q.events := by
  have hq : Inv q ∧ Addresses q :=
    run_invariant (fun q => Inv q ∧ Addresses q) (fun _ _ _ hs ha h => queueStep_inv hs ha h)
      ⟨inv_empty,Addresses.empty⟩ hseq hrun
  exact isDevpathBusy_fullScan hq.1.sorted (hq.1.memo e he)

/-- A disk, its partition, and a second event of the partition that waits for both. -/
def partitionRun : List QueueAction :=
  [.insert { seqnum := 1, devpath := str "/block/sda" },
   .insert { seqnum := 2, devpath := str "/block/sda/sda1" },
   .busy 1, .start 0, .insert { seqnum := 3, devpath := str "/block/sda/sda1" },
   .busy 2, .delete 0, .busy 1]

theorem busy_memo_exact_partition :
    ∃ q e, run queueStep {} partitionRun = some q ∧ e ∈ q.events ∧ e.delayingSeqnum = 1 ∧
      (isDevpathBusy e q.events).1 = fullScan e q.events := by
  refine ⟨_,_,rfl,List.mem_cons_self ..,rfl,?_⟩
  exact busy_memo_exact partitionRun (by decide) rfl (List.mem_cons_self ..)

end EventQueue
end Udev
