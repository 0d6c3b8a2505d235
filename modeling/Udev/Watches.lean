import Udev.ExecuteRules
import Udev.RulesFile
import Mathlib.Data.Int.Notation

/-! The watches on the nodes: the inotify instance, the links in /run/udev/watch and the numbers in the
databases. Events keep the three in agreement; a restart does so when every watch gets its old number. -/
namespace Udev
namespace ExecuteRules

open CString Text Decimal Database Device Rules

/-- The link of a watch, as `udev_watch_lookup` reads it. -/
def RunDir.watchLink (s : RunDir) (wd : ℕ) : Option CString := (s.watch.find? (·.1 = wd)).map (·.2)

/-- The loop of `udev_watch_restore` on one link. `lookup` is `udev_device_new_from_device_id`, and
`canWatch` says of which ids the node can be watched. -/
def restoreWatch (lookup : CString → Option Device) (canWatch : CString → Bool) (s : RunDir) (e : ℕ × CString) : RunDir :=
  match (lookup e.2).bind fun d => (Symlinks.idFilename d).map (d,·) with
  | none => s
  | some (d,id) => (udevWatchBegin (canWatch id) s id d).1

/-- `udev_watch_restore` after `udev_watch_init`; the directory is read in the given order. -/
def udevWatchRestore (order : List (ℕ × CString)) (lookup : CString → Option Device) (canWatch : CString → Bool)
    (s : RunDir) : RunDir :=
  order.foldl (restoreWatch lookup canWatch) { s with watch := [], inotify := {} }

/-- What `handle_inotify` does with the event that a removed watch leaves behind. -/
def handleIgnored (lookup : CString → Option Device) (s : RunDir) : RunDir :=
  match s.inotify.ignored with
  | [] => s
  | wd::ignored =>
    let s := { s with inotify := { s.inotify with ignored := ignored } }
    match (s.watchLink wd).bind lookup with
    | none => s
    | some d => (udevWatchEnd s (udevDeviceReadDb s ((Symlinks.idFilename d).getD []) d)).1

/-- The files and the devices whose last event asked for a watch. -/
structure WatchState where
  dir : RunDir := {}
  asked : CString → Bool := fun _ => false

inductive WatchAct (σ : Type)
  | event (u : Uevent σ)
  | restart (order : List (ℕ × CString)) (lookup : CString → Option Device) (canWatch : CString → Bool)
  | ignored (lookup : CString → Option Device)

def watchStep {σ : Type} (h : Host σ) (s : WatchState) : WatchAct σ → Option WatchState
  | .event u =>
    let r := workerEvent h u s.dir
    some ⟨r.2,(Symlinks.idFilename u.event.dev).elim s.asked (Function.update s.asked · r.1.inotifyWatch)⟩
  | .restart order lookup canWatch =>
    if order.Perm s.dir.watch then some { s with dir := udevWatchRestore order lookup canWatch s.dir } else none
  | .ignored lookup => some { s with dir := handleIgnored lookup s.dir }

/-- The watches of the devices as a map, and the files and the inotify instance that agree with it. -/
structure Placed (node : CString → CString) (s : RunDir) (m : CString → Option ℕ) : Prop where
  link : ∀ wd id, (wd,id) ∈ s.watch ↔ m id = some wd
  live : ∀ wd n, (wd,n) ∈ s.inotify.watches ↔ ∃ id, m id = some wd ∧ n = node id
  injective : ∀ id id' wd, m id = some wd → m id' = some wd → id = id'
  fresh : ∀ id wd, m id = some wd → wd < s.inotify.next
  ignored : ∀ wd ∈ s.inotify.ignored, wd < s.inotify.next ∧ ∀ id, m id ≠ some wd

def handleOf (wd : Option ℕ) : ℤ := wd.elim (-1) fun wd => (wd : ℤ)

def Recorded (s : RunDir) (m : CString → Option ℕ) : Prop :=
  ∀ id d, d.watchHandle = -1 → (udevDeviceReadDb s id d).watchHandle = handleOf (m id)

section Placed

variable {node : CString → CString} {s t : RunDir} {m : CString → Option ℕ} {id : CString} {d : Device}

theorem Placed.congr (hs : Placed node s m) (hwatch : t.watch = s.watch) (hinotify : t.inotify = s.inotify) :
    Placed node t m where
  link := by rw [hwatch]; exact hs.link
  live := by rw [hinotify]; exact hs.live
  injective := hs.injective
  fresh := by rw [hinotify]; exact hs.fresh
  ignored := by rw [hinotify]; exact hs.ignored

theorem Placed.watchLink (hs : Placed node s m) {wd : ℕ} : s.watchLink wd = some id ↔ m id = some wd := by
  rw [← hs.link,RunDir.watchLink]
  constructor
  · intro h
    obtain ⟨e,he,rfl⟩ := Option.map_eq_some_iff.mp h
    obtain rfl : e.1 = wd := by simpa using List.find?_some he
    exact List.mem_of_find?_eq_some he
  · intro hmem
    cases hfind : s.watch.find? (·.1 = wd) with
    | none => exact absurd hmem (by simpa using List.find?_eq_none.mp hfind (wd,id))
    | some e =>
      obtain rfl : e.1 = wd := by simpa using List.find?_some hfind
      have he := (hs.link e.1 e.2).mp (List.mem_of_find?_eq_some hfind)
      exact congrArg some (hs.injective _ _ _ he ((hs.link _ _).mp hmem))

theorem update_some_iff {v : Option ℕ} {id' : CString} {wd : ℕ} :
    Function.update m id v id' = some wd ↔ (id' = id ∧ v = some wd) ∨ (id' ≠ id ∧ m id' = some wd) := by
  by_cases h : id' = id
  · subst h
    simp
  · simp [h]

theorem Placed.watchEnd (hs : Placed node s m) (hd : d.watchHandle = handleOf (m id)) :
    Placed node (udevWatchEnd s d).1 (Function.update m id none) := by
  cases hm : m id with
  | none =>
    rw [hm] at hd
    have hneg : d.watchHandle < 0 := by rw [hd]; decide
    rw [udevWatchEnd,if_pos hneg,← hm,Function.update_eq_self]
    exact hs
  | some wd =>
    rw [hm] at hd
    have hnonneg : ¬d.watchHandle < 0 := by rw [hd]; simp [handleOf]
    have hnat : d.watchHandle.toNat = wd := by rw [hd]; simp [handleOf]
    have hlive : s.inotify.watches.any (·.1 = wd) = true :=
      List.any_eq_true.mpr ⟨(wd,node id),(hs.live _ _).mpr ⟨id,hm,rfl⟩,by simp⟩
    rw [udevWatchEnd,if_neg hnonneg]
    simp only [hnat,Inotify.rmWatch,hlive,if_true]
    have hother : ∀ id' wd', m id' = some wd' → (id' ≠ id ↔ wd' ≠ wd) := by
      intro id' wd' hm'
      constructor
      · rintro hne rfl
        exact hne (hs.injective _ _ _ hm' hm)
      · rintro hne rfl
        exact hne (Option.some.inj (hm'.symm.trans hm))
    have hiff : ∀ id' wd', Function.update m id none id' = some wd' ↔ m id' = some wd' ∧ wd' ≠ wd := by
      intro id' wd'
      rw [update_some_iff]
      constructor
      · rintro (⟨-,hnone⟩ | ⟨hne,hm'⟩)
        · cases hnone
        · exact ⟨hm',(hother id' wd' hm').mp hne⟩
      · rintro ⟨hm',hne⟩
        exact Or.inr ⟨(hother id' wd' hm').mpr hne,hm'⟩
    refine ⟨fun wd' id' => ?_,fun wd' n => ?_,fun id₁ id₂ wd' h₁ h₂ => ?_,fun id' wd' h' => ?_,fun wd' hwd' => ?_⟩
    · rw [hiff,List.mem_filter,hs.link]
      simp
    · rw [List.mem_filter,hs.live]
      simp only [hiff]
      constructor
      · rintro ⟨⟨id',hm',hn⟩,hne⟩
        exact ⟨id',⟨hm',by simpa using hne⟩,hn⟩
      · rintro ⟨id',⟨hm',hne⟩,hn⟩
        exact ⟨⟨id',hm',hn⟩,by simpa using hne⟩
    · exact hs.injective _ _ _ ((hiff _ _).mp h₁).1 ((hiff _ _).mp h₂).1
    · exact hs.fresh _ _ ((hiff _ _).mp h').1
    · rcases List.mem_append.mp hwd' with hwd' | hwd'
      · obtain ⟨hlt,hnone⟩ := hs.ignored wd' hwd'
        exact ⟨hlt,fun id' h' => hnone id' ((hiff _ _).mp h').1⟩
      · obtain rfl := List.mem_singleton.mp hwd'
        exact ⟨hs.fresh _ _ hm,fun id' h' => ((hiff _ _).mp h').2 rfl⟩

theorem Placed.watchBegin (hs : Placed node s m) (hnode : Function.Injective node) (hm : m id = none)
    (hd : d.devnode = some (node id)) :
    (udevWatchBegin true s id d).2 = { d with watchHandle := s.inotify.next } ∧
      (udevWatchBegin true s id d).1.inotify.next = s.inotify.next+1 ∧
      Placed node (udevWatchBegin true s id d).1 (Function.update m id (some s.inotify.next)) := by
  have hnone : s.inotify.watches.find? (·.2 = node id) = none := by
    refine List.find?_eq_none.mpr fun w hw => ?_
    obtain ⟨id',hm',hn⟩ := (hs.live w.1 w.2).mp hw
    have hne : w.2 ≠ node id := by
      intro heq
      obtain rfl := hnode (hn.symm.trans heq)
      rw [hm] at hm'
      cases hm'
    simpa using hne
  obtain ⟨wd,hwd⟩ : ∃ wd, s.inotify.next = wd := ⟨_,rfl⟩
  have hbegin : udevWatchBegin true s id d =
      ({ s with inotify := { s.inotify with next := wd+1, watches := (wd,node id)::s.inotify.watches },
                watch := (wd,id)::s.watch.filter (·.1 ≠ wd) },{ d with watchHandle := wd }) := by
    unfold udevWatchBegin Inotify.addWatch
    rw [hd]
    simp only [hnone,hwd,if_true]
  have hold : ∀ id' wd', m id' = some wd' → wd' ≠ wd := fun id' wd' hm' => by
    have := hs.fresh id' wd' hm'
    omega
  rw [hbegin,hwd]
  refine ⟨rfl,rfl,fun wd' id' => ?_,fun wd' n => ?_,fun id₁ id₂ wd' h₁ h₂ => ?_,fun id' wd' h' => ?_,fun wd' hwd' => ?_⟩
  · rw [update_some_iff,List.mem_cons,List.mem_filter,hs.link]
    constructor
    · rintro (heq | ⟨hm',-⟩)
      · obtain ⟨rfl,rfl⟩ := Prod.mk.inj heq
        exact Or.inl ⟨rfl,rfl⟩
      · refine Or.inr ⟨?_,hm'⟩
        rintro rfl
        rw [hm] at hm'
        cases hm'
    · rintro (⟨rfl,heq⟩ | ⟨-,hm'⟩)
      · exact Or.inl (by rw [Option.some.inj heq])
      · exact Or.inr ⟨hm',by simpa using hold id' wd' hm'⟩
  · rw [List.mem_cons,hs.live]
    simp only [update_some_iff]
    constructor
    · rintro (heq | ⟨id',hm',hn⟩)
      · obtain ⟨rfl,rfl⟩ := Prod.mk.inj heq
        exact ⟨id,Or.inl ⟨rfl,rfl⟩,rfl⟩
      · refine ⟨id',Or.inr ⟨?_,hm'⟩,hn⟩
        rintro rfl
        rw [hm] at hm'
        cases hm'
    · rintro ⟨id',⟨rfl,heq⟩ | ⟨-,hm'⟩,hn⟩
      · exact Or.inl (by rw [Option.some.inj heq,hn])
      · exact Or.inr ⟨id',hm',hn⟩
  · rcases update_some_iff.mp h₁ with ⟨rfl,heq₁⟩ | ⟨-,hm₁⟩ <;> rcases update_some_iff.mp h₂ with ⟨rfl,heq₂⟩ | ⟨-,hm₂⟩
    · rfl
    · exact absurd (Option.some.inj heq₁).symm (hold _ _ hm₂)
    · exact absurd (Option.some.inj heq₂).symm (hold _ _ hm₁)
    · exact hs.injective _ _ _ hm₁ hm₂
  · rcases update_some_iff.mp h' with ⟨rfl,heq⟩ | ⟨-,hm'⟩
    · have := Option.some.inj heq
      change wd' < wd+1
      omega
    · have := hs.fresh _ _ hm'
      change wd' < wd+1
      omega
  · obtain ⟨hlt,hfree⟩ := hs.ignored wd' hwd'
    refine ⟨?_,fun id' h' => ?_⟩
    · change wd' < wd+1
      omega
    · rcases update_some_iff.mp h' with ⟨rfl,heq⟩ | ⟨-,hm'⟩
      · have := Option.some.inj heq
        omega
      · exact hfree id' hm'

theorem placed_empty (s : RunDir) : Placed node { s with watch := [], inotify := {} } fun _ => none where
  link := by simp
  live := by simp
  injective := by simp
  fresh := by simp
  ignored := by simp

end Placed

def HasNumber (id : CString) : Prop := charAt id 0 = chr 'b' ∨ charAt id 0 = chr 'c'

theorem hasNumber_iff {d : Device} {id : CString} (hid : Symlinks.idFilename d = some id) :
    HasNumber id ↔ major d.devnum ≠ 0 := by
  have hkeys : chr 'n' ≠ chr 'b' ∧ chr 'n' ≠ chr 'c' ∧ chr '+' ≠ chr 'b' ∧ chr '+' ≠ chr 'c' := by decide
  obtain ⟨subsystem,-,rfl⟩ := Option.map_eq_some_iff.mp hid
  have hpos : major d.devnum > 0 ↔ major d.devnum ≠ 0 := UInt64.pos_iff_ne_zero
  by_cases hmajor : major d.devnum > 0
  · rw [if_pos hmajor]
    refine iff_of_true ?_ (hpos.mp hmajor)
    by_cases hblock : Symlinks.isBlock d = true
    · exact Or.inl (if_pos hblock)
    · exact Or.inr (if_neg hblock)
  · rw [if_neg hmajor]
    refine iff_of_false ?_ (mt hpos.mpr hmajor)
    split_ifs
    · rintro (h | h)
      · exact hkeys.1 h
      · exact hkeys.2.1 h
    · rintro (h | h)
      · exact hkeys.2.2.1 h
      · exact hkeys.2.2.2 h

/-- The file of a device gives back the number of its watch, whatever it is. -/
def WatchRead (dev : Device) : Prop :=
  ∀ wd : ℤ, wd < 2^31 → ∀ file, updateDb { dev with watchHandle := wd } = some file → ∀ d : Device, d.watchHandle = -1 →
    (readDb d file).watchHandle = if major dev.devnum > 0 ∧ wd ≥ 0 then wd else -1

theorem watchRead_of_lines {dev : Device} (hlines : ∀ line ∈ dbLines dev, LineOk line) (hvalid : ValidTags dev) :
    WatchRead dev := by
  intro wd hwd file hfile d hd
  have hlines' : ∀ line ∈ dbLines { dev with watchHandle := wd }, LineOk line := by
    intro line hline
    rcases dbLines_watchHandle dev wd line hline with hline | rfl
    · exact hlines line hline
    · exact lineOk_printInt (by decide) wd
  rw [(readDb_written hfile hlines' hvalid d).2 hwd,hd]

def leftDevice {σ : Type} (h : Host σ) (u : Uevent σ) (s : RunDir) (id : CString) : Device :=
  if u.event.dev.action = some .remove then removedDevice h u s id else ruledDevice h u s id

def asksWatch {σ : Type} (h : Host σ) (u : Uevent σ) (s : RunDir) : Bool := (udevEventExecuteRules h u s).1.inotifyWatch

/-- An event whose watch can be put on the node of its device, and whose database is read back. -/
structure WatchOk {σ : Type} (h : Host σ) (node : CString → CString) (s : RunDir) (u : Uevent σ) (id : CString) : Prop where
  named : Symlinks.idFilename u.event.dev = some id
  received : u.event.dev.watchHandle = -1
  read : u.event.dev.action ≠ some .remove ∨ asksWatch h u s = true → WatchRead (leftDevice h u s id)
  canWatch : asksWatch h u s = true →
    u.canWatch = true ∧ u.event.dev.devnode = some (node id) ∧ major u.event.dev.devnum ≠ 0 ∧ s.inotify.next < 2^31

theorem watchOk_of_lines {σ : Type} {h : Host σ} {node : CString → CString} {s : RunDir} {u : Uevent σ} {id : CString}
    (hnamed : Symlinks.idFilename u.event.dev = some id ∧ u.event.dev.watchHandle = -1)
    (hlines : (∀ line ∈ dbLines (leftDevice h u s id), LineOk line) ∧ ValidTags (leftDevice h u s id))
    (hcan : asksWatch h u s = true →
      u.canWatch = true ∧ u.event.dev.devnode = some (node id) ∧ major u.event.dev.devnum ≠ 0 ∧ s.inotify.next < 2^31) :
    WatchOk h node s u id :=
  ⟨hnamed.1,hnamed.2,fun _ => watchRead_of_lines hlines.1 hlines.2,hcan⟩

section Events

variable {σ : Type} {h : Host σ} {u : Uevent σ} {node : CString → CString} {s t : RunDir} {m : CString → Option ℕ}
  {id : CString}

theorem left_device (hid : Symlinks.idFilename u.event.dev = some id) :
    (udevEventExecuteRules h u s).1.dev = leftDevice h u s id ∧
      (leftDevice h u s id).devnode = u.event.dev.devnode ∧ (leftDevice h u s id).devnum = u.event.dev.devnum := by
  unfold leftDevice
  by_cases haction : u.event.dev.action = some .remove
  · rw [if_pos haction]
    exact ⟨(execute_remove hid haction).1,removedDevice_node⟩
  · rw [if_neg haction]
    obtain ⟨hdev,hkept,-⟩ := execute_other (h := h) (s := s) hid haction
    exact ⟨hdev,congrArg (·.1) hkept,congrArg (·.2.2.1) hkept⟩

theorem Recorded.update (hs : Recorded s m) {file : Option (List UInt8)} (hdata : t.data = Function.update s.data id file)
    {wd : Option ℕ} (hread : ∀ d : Device, d.watchHandle = -1 → (file.elim d (readDb d)).watchHandle = handleOf wd) :
    Recorded t (Function.update m id wd) := by
  intro id' d hd
  rw [udevDeviceReadDb,hdata]
  by_cases heq : id' = id
  · subst heq
    rw [Function.update_self,Function.update_self]
    exact hread d hd
  · rw [Function.update_of_ne heq,Function.update_of_ne heq]
    exact hs id' d hd

theorem WatchRead.elim {dev : Device} (hdev : WatchRead dev) {wd : Option ℕ} (hwd : ∀ n ∈ wd, n < 2^31 ∧ major dev.devnum ≠ 0)
    {d : Device} (hd : d.watchHandle = -1) :
    ((updateDb { dev with watchHandle := handleOf wd }).elim d (readDb d)).watchHandle = handleOf wd := by
  have hbound : handleOf wd < 2^31 := by
    cases wd with
    | none => decide
    | some n =>
      have := (hwd n rfl).1
      simp only [handleOf,Option.elim_some]
      omega
  have hif : (if major dev.devnum > 0 ∧ handleOf wd ≥ 0 then handleOf wd else -1) = handleOf wd := by
    cases wd with
    | none => simp [handleOf]
    | some n =>
      refine if_pos ⟨UInt64.pos_iff_ne_zero.mpr (hwd n rfl).2,?_⟩
      simp [handleOf]
  cases hfile : updateDb { dev with watchHandle := handleOf wd } with
  | none =>
    have hmajor : major dev.devnum = 0 := (updateDb_eq_none hfile).2
    cases wd with
    | none => exact hd
    | some n => exact absurd hmajor (hwd n rfl).2
  | some file => exact (hdev _ hbound file hfile d hd).trans hif

theorem Placed.endOld (hs : Placed node s m) (hnumber : m id ≠ none → HasNumber id) {d : Device}
    (hd : d.watchHandle = handleOf (m id)) {devnum : UInt64} (hid : HasNumber id ↔ major devnum ≠ 0) :
    Placed node (if major devnum ≠ 0 then udevWatchEnd s d else (s,d)).1 (Function.update m id none) := by
  split_ifs with hmajor
  · exact hs.watchEnd hd
  · have hm : m id = none := by
      by_contra hm
      exact hmajor (hid.mp (hnumber hm))
    rw [← hm,Function.update_eq_self]
    exact hs

theorem watchEnd_next (s : RunDir) (d : Device) : (udevWatchEnd s d).1.inotify.next = s.inotify.next := by
  unfold udevWatchEnd Inotify.rmWatch
  split_ifs
  · rfl
  · dsimp only
    split_ifs <;> rfl

theorem execute_placed (hs : Placed node s m) (hrec : Recorded s m) (hnumber : m id ≠ none → HasNumber id)
    (hid : Symlinks.idFilename u.event.dev = some id) (hwatch : u.event.dev.watchHandle = -1) :
    Placed node (udevEventExecuteRules h u s).2 (Function.update m id none) ∧
      (udevEventExecuteRules h u s).2.data = Function.update s.data id
        (if u.event.dev.action = some .remove then none else updateDb (ruledDevice h u s id)) ∧
      (udevEventExecuteRules h u s).2.inotify.next = s.inotify.next := by
  have hmajor := hasNumber_iff hid
  by_cases haction : u.event.dev.action = some .remove
  · rw [(execute_remove (h := h) hid haction).2,if_pos haction]
    extract_lets dev left
    have hnode := udevDeviceReadDb_node s id u.event.dev
    obtain ⟨hdata,hlinks,hinotify⟩ := tagIndex_frame (udevDeviceDeleteDb s id) id dev none false
    have hleft : Placed node left m := hs.congr hlinks hinotify
    have hnext : left.inotify.next = s.inotify.next := congrArg (·.next) hinotify
    refine ⟨hleft.endOld hnumber (hrec id _ hwatch) (by rw [hmajor,hnode.2]),?_⟩
    split_ifs
    · exact ⟨(watchEnd_frame left dev).2.1.trans hdata,(watchEnd_next left dev).trans hnext⟩
    · exact ⟨hdata,hnext⟩
  · rw [(execute_other (h := h) (s := s) hid haction).2.2.2,if_neg haction]
    have hread := hrec id ((Device.setSyspath {} u.event.dev.syspath).setSubsystem (u.event.dev.subsystem.getD [])) rfl
    have hold : Placed node (oldDevice u s id).1 (Function.update m id none) := hs.endOld hnumber hread hmajor
    obtain ⟨hdata,hlinks,hinotify⟩ := tagIndex_frame (udevDeviceUpdateDb (oldDevice u s id).1 id (ruledDevice h u s id)) id
      (ruledDevice h u s id) (some (oldDevice u s id).2) true
    have hnext : (oldDevice u s id).1.inotify.next = s.inotify.next := by
      unfold oldDevice
      dsimp only
      split_ifs
      · exact watchEnd_next s _
      · rfl
    refine ⟨hold.congr hlinks hinotify,hdata.trans ?_,(congrArg (·.next) hinotify).trans hnext⟩
    rw [udevDeviceUpdateDb,(oldDevice_frame u s id).2.1]

/-- What an event does to the watches: its device has a new one if the rules ask for it, and none otherwise. -/
theorem worker_placed (hnode : Function.Injective node) (hs : Placed node s m) (hrec : Recorded s m)
    (hnumber : m id ≠ none → HasNumber id) (hu : WatchOk h node s u id) :
    ∃ wd : Option ℕ, wd.isSome = asksWatch h u s ∧ (wd ≠ none → HasNumber id) ∧
      (workerEvent h u s).1.inotifyWatch = asksWatch h u s ∧
      Placed node (workerEvent h u s).2 (Function.update m id wd) ∧
      Recorded (workerEvent h u s).2 (Function.update m id wd) := by
  obtain ⟨hplaced,hdata,hsame⟩ := execute_placed (h := h) hs hrec hnumber hu.named hu.received
  obtain ⟨hdev,hdevnode,hdevnum⟩ := left_device (h := h) (s := s) hu.named
  obtain ⟨r,hr⟩ : ∃ r, udevEventExecuteRules h u s = r := ⟨_,rfl⟩
  have hasks : asksWatch h u s = r.1.inotifyWatch := by rw [← hr]; rfl
  have hworker : workerEvent h u s = if r.1.inotifyWatch then
      ({ r.1 with dev := (udevWatchBegin u.canWatch r.2 id r.1.dev).2 },
        udevDeviceUpdateDb (udevWatchBegin u.canWatch r.2 id r.1.dev).1 id (udevWatchBegin u.canWatch r.2 id r.1.dev).2)
      else r := by
    rw [workerEvent,hu.named]
    simp only [hr]
  rw [hr] at hplaced hdata hsame hdev
  by_cases hask : r.1.inotifyWatch = true
  · obtain ⟨hcan,hdevice,hmajor,hnext⟩ := hu.canWatch (hasks.trans hask)
    have hdevnode' : r.1.dev.devnode = some (node id) := by rw [hdev,hdevnode,hdevice]
    obtain ⟨hbegin,-,hnew⟩ := hplaced.watchBegin hnode (Function.update_self id none m) hdevnode'
    rw [Function.update_idem] at hnew
    have hframe := watchBegin_frame true r.2 id r.1.dev
    rw [hworker,if_pos hask,hcan]
    refine ⟨some r.2.inotify.next,by rw [hasks,hask]; rfl,fun _ => (hasNumber_iff hu.named).mpr hmajor,?_,
      hnew.congr rfl rfl,?_⟩
    · exact hask.trans (hasks.trans hask).symm
    · rw [hbegin]
      have hread : WatchRead r.1.dev := hdev ▸ hu.read (Or.inr (hasks.trans hask))
      have hbound : ∀ n ∈ some r.2.inotify.next, n < 2^31 ∧ major r.1.dev.devnum ≠ 0 := by
        rintro n hn
        obtain rfl := Option.some.inj hn
        exact ⟨hsame ▸ hnext,by rw [hdev,hdevnum]; exact hmajor⟩
      refine hrec.update ?_ fun d hd => hread.elim hbound hd
      rw [udevDeviceUpdateDb,hframe.2,hdata,Function.update_idem]
      rfl
  · rw [hworker,if_neg hask]
    refine ⟨none,by rw [hasks]; simpa using hask,fun hne => absurd rfl hne,hasks.symm,hplaced,?_⟩
    refine hrec.update hdata fun d hd => ?_
    split_ifs with haction
    · exact hd
    · have hread : WatchRead (ruledDevice h u s id) := by
        have hleft := hu.read (Or.inl haction)
        rwa [leftDevice,if_neg haction] at hleft
      have hold : (ruledDevice h u s id).watchHandle = -1 :=
        (congrArg (·.2.2.2.2) (execute_other (h := h) (s := s) hu.named haction).2.1).trans hu.received
      have heq : ({ ruledDevice h u s id with watchHandle := handleOf none } : Device) = ruledDevice h u s id := by
        rw [handleOf,Option.elim_none,← hold]
      exact heq ▸ hread.elim (by simp) hd

end Events

/-- A directory whose entries are read in the order of their numbers, which are those from 1 on, and
whose devices are all found. -/
structure RestoreOk (node : CString → CString) (order : List (ℕ × CString)) (lookup : CString → Option Device)
    (canWatch : CString → Bool) : Prop where
  numbers : order.map (·.1) = List.range' 1 order.length
  found : ∀ e ∈ order, canWatch e.2 = true ∧
    ∃ d, lookup e.2 = some d ∧ Symlinks.idFilename d = some e.2 ∧ d.devnode = some (node e.2)

section Restore

variable {node : CString → CString} {s : RunDir} {m : CString → Option ℕ} {order : List (ℕ × CString)}
  {lookup : CString → Option Device} {canWatch : CString → Bool}

theorem restoreWatch_frame (s : RunDir) (e : ℕ × CString) : (restoreWatch lookup canWatch s e).data = s.data := by
  unfold restoreWatch
  split
  · rfl
  · exact (watchBegin_frame _ _ _ _).2

theorem udevWatchRestore_data (s : RunDir) : (udevWatchRestore order lookup canWatch s).data = s.data := by
  have hloop : ∀ s : RunDir, (order.foldl (restoreWatch lookup canWatch) s).data = s.data := by
    induction order with
    | nil => exact fun _ => rfl
    | cons e order ih => exact fun s => (ih _).trans (restoreWatch_frame s e)
  exact hloop _

theorem restore_loop (hnode : Function.Injective node)
    (hfound : ∀ e ∈ order, canWatch e.2 = true ∧
      ∃ d, lookup e.2 = some d ∧ Symlinks.idFilename d = some e.2 ∧ d.devnode = some (node e.2))
    (hs : Placed node s m) (hnumbers : order.map (·.1) = List.range' s.inotify.next order.length)
    (hids : (order.map (·.2)).Nodup) (hfree : ∀ e ∈ order, m e.2 = none) :
    ∃ m', Placed node (order.foldl (restoreWatch lookup canWatch) s) m' ∧
      ∀ wd id, m' id = some wd ↔ m id = some wd ∨ (wd,id) ∈ order := by
  induction order generalizing s m with
  | nil => exact ⟨m,hs,by simp⟩
  | cons e order ih =>
    obtain ⟨hcan,d,hlookup,hid,hdevnode⟩ := hfound e List.mem_cons_self
    obtain ⟨-,hnext,hplaced⟩ := hs.watchBegin hnode (hfree e List.mem_cons_self) hdevnode
    have hone : restoreWatch lookup canWatch s e = (udevWatchBegin true s e.2 d).1 := by
      simp only [restoreWatch,hlookup,Option.bind_some,hid,Option.map_some,hcan]
    rw [List.map_cons,List.length_cons,List.range'_succ] at hnumbers
    obtain ⟨hfirst,hrest⟩ := List.cons_eq_cons.mp hnumbers
    obtain ⟨hnew,hids⟩ := List.nodup_cons.mp hids
    rw [List.foldl_cons,hone]
    rw [← hnext] at hrest
    obtain ⟨m',hplaced',hm'⟩ := ih (fun e he => hfound e (List.mem_cons_of_mem _ he)) hplaced hrest hids fun e' he' => by
      have hne : e'.2 ≠ e.2 := by
        intro heq
        exact hnew (List.mem_map.mpr ⟨e',he',heq⟩)
      rw [Function.update_of_ne hne]
      exact hfree e' (List.mem_cons_of_mem _ he')
    refine ⟨m',hplaced',fun wd id => ?_⟩
    rw [hm',update_some_iff,List.mem_cons,← hfirst]
    have heq : (wd,id) = e ↔ id = e.2 ∧ some e.1 = some wd := by
      constructor
      · rintro rfl
        exact ⟨rfl,rfl⟩
      · rintro ⟨rfl,hwd⟩
        rw [← Option.some.inj hwd]
    rw [heq]
    have hnone := hfree e List.mem_cons_self
    constructor
    · rintro ((hlink | ⟨-,hold⟩) | hlater)
      · exact Or.inr (Or.inl hlink)
      · exact Or.inl hold
      · exact Or.inr (Or.inr hlater)
    · rintro (hold | hlink | hlater)
      · refine Or.inl (Or.inr ⟨?_,hold⟩)
        rintro rfl
        rw [hnone] at hold
        cases hold
      · exact Or.inl (Or.inl hlink)
      · exact Or.inr hlater

theorem restore_placed (hnode : Function.Injective node) (hs : Placed node s m) (hperm : order.Perm s.watch)
    (hok : RestoreOk node order lookup canWatch) : Placed node (udevWatchRestore order lookup canWatch s) m := by
  have hmem : ∀ wd id, (wd,id) ∈ order ↔ m id = some wd := fun wd id => hperm.mem_iff.trans (hs.link wd id)
  have horder : order.Nodup := by
    refine List.Nodup.of_map (·.1) ?_
    rw [hok.numbers]
    exact List.nodup_range'
  have hids : (order.map (·.2)).Nodup := by
    refine List.Nodup.map_on (fun e he e' he' heq => ?_) horder
    have hm := (hmem e.1 e.2).mp he
    have hm' := (hmem e'.1 e'.2).mp he'
    rw [heq,hm'] at hm
    exact Prod.ext (Option.some.inj hm).symm heq
  obtain ⟨m',hplaced,hm'⟩ := restore_loop hnode hok.found (placed_empty s) hok.numbers hids fun _ _ => rfl
  have hsame : m' = m := by
    funext id
    refine Option.ext fun wd => ?_
    rw [hm',hmem]
    simp
  exact hsame ▸ hplaced

theorem ignored_placed (hs : Placed node s m) : Placed node (handleIgnored lookup s) m ∧ (handleIgnored lookup s).data = s.data := by
  unfold handleIgnored
  split
  · exact ⟨hs,rfl⟩
  · next wd ignored hqueue =>
    have hwd := (hs.ignored wd (by rw [hqueue]; exact List.mem_cons_self)).2
    have hplaced : Placed node { s with inotify := { s.inotify with ignored := ignored } } m :=
      ⟨hs.link,hs.live,hs.injective,hs.fresh,fun wd' hwd' => hs.ignored wd' (by rw [hqueue]; exact List.mem_cons_of_mem _ hwd')⟩
    have hnone : RunDir.watchLink { s with inotify := { s.inotify with ignored := ignored } } wd = none := by
      by_contra hsome
      obtain ⟨id,hid⟩ := Option.ne_none_iff_exists'.mp hsome
      exact hwd id (hplaced.watchLink.mp hid)
    simp only [hnone,Option.bind_none,and_true]
    exact hplaced

end Restore

/-- The watch of a device: the node is watched, the link names the device, and the database has the number. -/
def Watched (node : CString → CString) (s : RunDir) (id : CString) : Prop :=
  ∃ wd : ℕ, (wd,node id) ∈ s.inotify.watches ∧ s.watchLink wd = some id ∧ (udevDeviceReadDb s id {}).watchHandle = wd

def KeepsOthers (node : CString → CString) (id : CString) (s t : RunDir) : Prop :=
  ∀ other ≠ id, (∀ wd, s.watchLink wd = some other → t.watchLink wd = some other) ∧
    ∀ wd, (wd,node other) ∈ s.inotify.watches → (wd,node other) ∈ t.inotify.watches

/-- In a run no event touches the watches of other devices, and after each step the devices that asked
for a watch have it. -/
def WatchesRight {σ : Type} (h : Host σ) (node : CString → CString) (acts : List (WatchAct σ)) : Prop :=
  ∀ pre act s t, pre ++ [act] <+: acts → Runs.run (watchStep h) {} pre = some s → watchStep h s act = some t →
    (∀ u id, act = .event u → Symlinks.idFilename u.event.dev = some id → KeepsOthers node id s.dir t.dir) ∧
      ∀ id, t.asked id = true → Watched node t.dir id

/-- The steps that keep the watches in order. -/
def ActOk {σ : Type} (h : Host σ) (node : CString → CString) (s : WatchState) : WatchAct σ → Prop
  | .event u => ∃ id, WatchOk h node s.dir u id
  | .restart order lookup canWatch => RestoreOk node order lookup canWatch
  | .ignored _ => True

/-- The state of the watches is that of a map of devices to numbers. -/
structure Represents (node : CString → CString) (s : WatchState) (m : CString → Option ℕ) : Prop where
  placed : Placed node s.dir m
  recorded : Recorded s.dir m
  asked : ∀ id, s.asked id = (m id).isSome
  number : ∀ id, m id ≠ none → HasNumber id

section Run

variable {σ : Type} {h : Host σ} {node : CString → CString} {s t : WatchState} {m m' : CString → Option ℕ}
  {acts : List (WatchAct σ)}

theorem Represents.watched (hs : Represents node s m) {id : CString} (hask : s.asked id = true) :
    Watched node s.dir id := by
  rw [hs.asked] at hask
  obtain ⟨wd,hwd⟩ := Option.isSome_iff_exists.mp hask
  refine ⟨wd,(hs.placed.live wd _).mpr ⟨id,hwd,rfl⟩,hs.placed.watchLink.mpr hwd,?_⟩
  rw [hs.recorded id {} rfl,hwd]
  rfl

/-- When the maps differ at one device, the watches of the others are kept. -/
theorem keepsOthers_of_update (hnode : Function.Injective node) (hs : Placed node s.dir m) {id : CString} {wd : Option ℕ}
    (ht : Placed node t.dir (Function.update m id wd)) : KeepsOthers node id s.dir t.dir := by
  intro other hne
  refine ⟨fun n hn => ?_,fun n hn => ?_⟩
  · rw [ht.watchLink,Function.update_of_ne hne]
    exact hs.watchLink.mp hn
  · obtain ⟨other',hm,heq⟩ := (hs.live n _).mp hn
    obtain rfl := hnode heq
    exact (ht.live n _).mpr ⟨other,by rwa [Function.update_of_ne hne],rfl⟩

theorem step_represents (hnode : Function.Injective node) (hs : Represents node s m) {act : WatchAct σ}
    (hok : ActOk h node s act) (hstep : watchStep h s act = some t) :
    (∃ m', Represents node t m') ∧
      ∀ u id, act = .event u → Symlinks.idFilename u.event.dev = some id → KeepsOthers node id s.dir t.dir := by
  cases act with
  | event u =>
    obtain ⟨id,hu⟩ := hok
    obtain rfl := Option.some.inj hstep
    obtain ⟨wd,hask,hnumber,hflag,hplaced,hrecorded⟩ :=
      worker_placed (h := h) hnode hs.placed hs.recorded (hs.number id) hu
    refine ⟨⟨Function.update m id wd,hplaced,hrecorded,fun id' => ?_,fun id' hne => ?_⟩,?_⟩
    · rw [hu.named,Option.elim_some,hflag]
      change Function.update s.asked id (asksWatch h u s.dir) id' = _
      by_cases heq : id' = id
      · subst heq
        rw [Function.update_self,Function.update_self,hask]
      · rw [Function.update_of_ne heq,Function.update_of_ne heq]
        exact hs.asked id'
    · by_cases heq : id' = id
      · subst heq
        rw [Function.update_self] at hne
        exact hnumber hne
      · rw [Function.update_of_ne heq] at hne
        exact hs.number id' hne
    · rintro u' id' heq hid'
      obtain rfl := WatchAct.event.inj heq
      obtain rfl := Option.some.inj (hu.named.symm.trans hid')
      exact keepsOthers_of_update (s := s) hnode hs.placed hplaced
  | restart order lookup canWatch =>
    rw [watchStep] at hstep
    split_ifs at hstep with hperm
    obtain rfl := Option.some.inj hstep
    refine ⟨⟨m,restore_placed hnode hs.placed hperm hok,?_,hs.asked,hs.number⟩,fun _ _ heq => nomatch heq⟩
    intro id d hd
    rw [udevDeviceReadDb,udevWatchRestore_data]
    exact hs.recorded id d hd
  | ignored lookup =>
    obtain rfl := Option.some.inj hstep
    obtain ⟨hplaced,hdata⟩ : Placed node (handleIgnored lookup s.dir) m ∧ (handleIgnored lookup s.dir).data = s.dir.data :=
      ignored_placed hs.placed
    refine ⟨⟨m,hplaced,?_,hs.asked,hs.number⟩,fun _ _ heq => nomatch heq⟩
    intro id d hd
    rw [udevDeviceReadDb,hdata]
    exact hs.recorded id d hd

theorem represents_start : Represents node {} fun _ => none where
  placed := placed_empty {}
  recorded := fun _ _ hd => hd
  asked := fun _ => rfl
  number := fun _ hne => absurd rfl hne

theorem run_right (hnode : Function.Injective node) (hs : Represents node s m)
    (hok : Runs.Along (watchStep h) (ActOk h node) s acts) :
    ∀ pre act s' t, pre ++ [act] <+: acts → Runs.run (watchStep h) s pre = some s' → watchStep h s' act = some t →
      (∀ u id, act = .event u → Symlinks.idFilename u.event.dev = some id → KeepsOthers node id s'.dir t.dir) ∧
        ∀ id, t.asked id = true → Watched node t.dir id := by
  induction acts generalizing s m with
  | nil =>
    intro pre act s' t hpre
    exact absurd (List.prefix_nil.mp hpre) (by simp)
  | cons a acts ih =>
    intro pre act s' t hpre hrun hstep
    cases pre with
    | nil =>
      obtain ⟨rfl,-⟩ := List.cons_prefix_cons.mp hpre
      obtain rfl := Option.some.inj hrun
      obtain ⟨⟨m',ht⟩,hkeeps⟩ := step_represents hnode hs (Runs.along_cons hstep hok).1 hstep
      exact ⟨hkeeps,fun id hask => ht.watched hask⟩
    | cons b pre =>
      obtain ⟨rfl,hrest⟩ := List.cons_prefix_cons.mp hpre
      obtain ⟨s₁,hfirst,hrun⟩ := Runs.run_cons_some.mp hrun
      obtain ⟨hb,hacts⟩ := Runs.along_cons hfirst hok
      obtain ⟨⟨m',ht⟩,-⟩ := step_represents hnode hs hb hfirst
      exact ih ht hacts pre act s' t hrest hrun hstep

theorem watches_right (hnode : Function.Injective node) (hok : Runs.Along (watchStep h) (ActOk h node) {} acts) :
    WatchesRight h node acts :=
  run_right hnode represents_start hok

end Run

def diskNode (id : CString) : CString := str "/dev/" ++ id

def watchedDisk (id : CString) (devnum : UInt64) : Device :=
  { devnum := devnum, subsystem := some (str "block"), devnode := some (diskNode id) }

def watchEvent (id : CString) (devnum : UInt64) (action : Action) (rules : String) : WatchAct Unit :=
  .event {
    event := { dev := { watchedDisk id devnum with action := some action } }
    rules := rulesLoad plainOptions [some (str rules)]
    host := () }

def lookupDisk (id : CString) : Option Device :=
  some (if id = str "b8:0" then watchedDisk (str "b8:0") 0x800 else watchedDisk (str "b8:16") 0x810)

def watchTwo : List (WatchAct Unit) :=
  [watchEvent (str "b8:0") 0x800 .add "OPTIONS+=\"watch\"\n",watchEvent (str "b8:16") 0x810 .add "OPTIONS+=\"watch\"\n"]

set_option maxRecDepth 8000 in
/-- The links are restored in their order. -/
theorem watches_right_disks : WatchesRight emptyHost diskNode
    (watchTwo ++ [.restart [(1,str "b8:0"),(2,str "b8:16")] lookupDisk fun _ => true,watchEvent (str "b8:0") 0x800 .change ""]) := by
  have hnode : Function.Injective diskNode := fun _ _ => List.append_cancel_left
  refine watches_right hnode ⟨⟨str "b8:0",?_⟩,⟨str "b8:16",?_⟩,⟨by decide,?_⟩,⟨str "b8:0",?_⟩,trivial⟩
  · exact watchOk_of_lines (by decide +kernel) (by decide +kernel) (by decide +kernel)
  · exact watchOk_of_lines (by decide +kernel) (by decide +kernel) (by decide +kernel)
  · intro e he
    rcases List.mem_pair.mp he with rfl | rfl
    · exact ⟨rfl,_,rfl,by decide +kernel,rfl⟩
    · exact ⟨rfl,_,rfl,by decide +kernel,rfl⟩
  · exact watchOk_of_lines (by decide +kernel) (by decide +kernel) (by decide +kernel)

set_option maxRecDepth 8000 in
/-- The second link is restored first and gets the number of the first; the next event of the first disk
takes the watch of the second away. -/
theorem watch_taken_away : ¬WatchesRight emptyHost diskNode
    (watchTwo ++ [.restart [(2,str "b8:16"),(1,str "b8:0")] lookupDisk fun _ => true,watchEvent (str "b8:0") 0x800 .change ""]) := by
  intro h
  have hlast := (h (watchTwo ++ [.restart [(2,str "b8:16"),(1,str "b8:0")] lookupDisk fun _ => true])
    (watchEvent (str "b8:0") 0x800 .change "") _ _ List.prefix_rfl rfl rfl).1 _ (str "b8:0") rfl rfl
  have hlink := (hlast (str "b8:16") (by decide)).1 1
  revert hlink
  decide +kernel

end ExecuteRules
end Udev
