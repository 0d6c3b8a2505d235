import Udev.Evolution
import Udev.FileTree
import Udev.Receive
import Udev.Symlinks

/-! The handling of an event: the old database is read, the rules are applied, the database
and the tag index are written anew, and a watch is put on the node. Links, nodes and programs
are left out. -/
namespace Udev
namespace ExecuteRules

open CString Text Decimal Database Device Rules

/-- The inotify instance of the daemon. A number is given once; a watch that is removed leaves
an event behind. -/
structure Inotify where
  next : ℕ := 1
  watches : List (ℕ × CString) := []
  ignored : List ℕ := []
deriving DecidableEq, Repr

/-- `inotify_add_watch` on a node that exists; a node is watched once. -/
def Inotify.addWatch (i : Inotify) (node : CString) : ℕ × Inotify :=
  match i.watches.find? (·.2 = node) with
  | some w => (w.1,i)
  | none => (i.next,{ i with next := i.next+1, watches := (i.next,node)::i.watches })

/-- `inotify_rm_watch` -/
def Inotify.rmWatch (i : Inotify) (wd : ℕ) : Inotify :=
  if i.watches.any (·.1 = wd) then
    { i with watches := i.watches.filter (·.1 ≠ wd), ignored := i.ignored ++ [wd] }
  else i

/-- The files in /run/udev: the databases by their ids, the tag index as a part of the file system, and
the links of the watches; and the inotify instance. -/
structure RunDir where
  data : CString → Option (List UInt8) := fun _ => none
  tags : FileTree CString := fun _ => none
  watch : List (ℕ × CString) := []
  inotify : Inotify := {}

def tagFile (id tag : CString) : CString := strscpyl utilPathSize [str "/run/udev/tags/",tag,str "/",id]

def shortName (name : CString) : Bool := name.length ≤ 255

/-- `udev_device_tag`. The results of `path_create` and `open` are not looked at. -/
def udevDeviceTag (s : RunDir) (id tag : CString) (add : Bool) : RunDir :=
  let names := (tagFile id tag).splitOn (chr '/')
  let dirs := names.dropLast
  let name := names.getLastD []
  if add then
    let tags := FileTree.mkdirs DevPath.enter shortName s.tags [] dirs
    { s with tags := FileTree.create DevPath.enter shortName tags dirs name }
  else { s with tags := FileTree.unlink DevPath.enter shortName s.tags dirs name }

def tagNames (d : Device) : List CString := d.tagsList.map (·.name)

def udevDeviceTagIndex (s : RunDir) (id : CString) (dev : Device) (devOld : Option Device) (add : Bool) : RunDir :=
  let s := match devOld with
    | some old => if add then ((tagNames old).filter (· ∉ tagNames dev)).foldl (udevDeviceTag · id · false) s else s
    | none => s
  (tagNames dev).foldl (udevDeviceTag · id · add) s

def udevDeviceReadDb (s : RunDir) (id : CString) (d : Device) : Device := (s.data id).elim d (readDb d)

def udevDeviceUpdateDb (s : RunDir) (id : CString) (d : Device) : RunDir :=
  { s with data := Function.update s.data id (updateDb d) }

def udevDeviceDeleteDb (s : RunDir) (id : CString) : RunDir := { s with data := Function.update s.data id none }

/-- `udev_watch_begin`; `canWatch` says whether a watch can be put on the node. -/
def udevWatchBegin (canWatch : Bool) (s : RunDir) (id : CString) (d : Device) : RunDir × Device :=
  match d.devnode with
  | none => (s,d)
  | some node =>
    if canWatch then
      let r := s.inotify.addWatch node
      ({ s with inotify := r.2, watch := (r.1,id)::s.watch.filter (·.1 ≠ r.1) },{ d with watchHandle := r.1 })
    else (s,d)

def udevWatchEnd (s : RunDir) (d : Device) : RunDir × Device :=
  if d.watchHandle < 0 then (s,d)
  else
    let wd := d.watchHandle.toNat
    ({ s with inotify := s.inotify.rmWatch wd, watch := s.watch.filter (·.1 ≠ wd) },{ d with watchHandle := -1 })

/-- An event with what its handling finds: the rules, the system, whether an interface can be
renamed and the node be watched, and the time. -/
structure Uevent (σ : Type) where
  event : Event
  rules : List Token
  host : σ
  canRename : Bool := true
  canWatch : Bool := true
  now : ℕ := 1

section Execute

variable {σ : Type} (h : Host σ)

def renameNetif (u : Uevent σ) (ev : Event) : Event :=
  match ev.name with
  | none => ev
  | some name =>
    if ev.dev.ifindex > 0 ∧ ev.dev.action = some .add ∧ name ≠ ev.dev.sysname ∧ u.canRename then
      let dev := ev.dev.setProperty (str "INTERFACE_OLD") ev.dev.sysname
      let syspath := strscpy utilPathSize dev.syspath
      if chr '/' ∈ syspath then
        let dir := syspath.take (syspath.length-(lastPart syspath).length)
        let dev := dev.setSyspath (dir ++ strscpy (utilPathSize-dir.length) name)
        { ev with dev := dev.setProperty (str "INTERFACE") dev.sysname }
      else { ev with dev := dev }
    else ev

def keepUsec (u : Uevent σ) (devDb d : Device) : Device :=
  if devDb.usecInitialized > 0 then setUsecInitialized d devDb.usecInitialized
  else if d.usecInitialized = 0 then setUsecInitialized d u.now
  else d

/-- `udev_event_execute_rules`. The id is kept in the device once it is known. -/
def udevEventExecuteRules (u : Uevent σ) (s : RunDir) : Event × RunDir :=
  let dev := u.event.dev
  match Symlinks.idFilename dev with
  | none => (u.event,s)
  | some id =>
    if dev.action = some .remove then
      let dev := udevDeviceReadDb s id dev
      let s := udevDeviceTagIndex (udevDeviceDeleteDb s id) id dev none false
      let r := if major dev.devnum ≠ 0 then udevWatchEnd s dev else (s,dev)
      (applyToEvent h u.rules { u.event with dev := r.2 } u.host,r.1)
    else
      let devDb := (Device.setSyspath {} dev.syspath).setSubsystem (dev.subsystem.getD [])
      let devDb := udevDeviceReadDb s id devDb
      let r := if major dev.devnum ≠ 0 then udevWatchEnd s devDb else (s,devDb)
      let ev := applyToEvent h u.rules { u.event with devDb := some r.2 } u.host
      let ev := renameNetif u ev
      let dev := keepUsec u r.2 ev.dev
      let s := udevDeviceTagIndex (udevDeviceUpdateDb r.1 id dev) id dev (some r.2) true
      ({ ev with dev := dev, devDb := none },s)

/-- The part of the worker's loop that handles an event; a watch is put on the node when the rules ask
for it. -/
def workerEvent (u : Uevent σ) (s : RunDir) : Event × RunDir :=
  let r := udevEventExecuteRules h u s
  match Symlinks.idFilename u.event.dev with
  | none => r
  | some id =>
    if r.1.inotifyWatch then
      let w := udevWatchBegin u.canWatch r.2 id r.1.dev
      ({ r.1 with dev := w.2 },udevDeviceUpdateDb w.1 id w.2)
    else r

end Execute

section Read

theorem evolves_addPropertyFromString (d : Device) (property : CString) :
    Evolves (fun _ => False) d (addPropertyFromString d property).1 ∧ (addPropertyFromString d property).1.lists = d.lists := by
  unfold addPropertyFromString
  dsimp only
  split
  · exact ⟨.refl,rfl⟩
  · split_ifs
    · exact ⟨.single (.deleteProperty _),lists_deleteProperty _ _⟩
    · exact ⟨.single (.setProperty _ _),rfl⟩

/-- A line of the file changes the tags or the watch only when it is one of them. -/
theorem readDbLine_fields (d : Device) (line : CString) :
    (readDbLine d line).tagsList = (if charAt line 0 = chr 'G' then d.addTag (line.drop 2) else d).tagsList ∧
      (readDbLine d line).watchHandle = if charAt line 0 = chr 'W' then atoi (line.drop 2) else d.watchHandle := by
  have hkeys : chr 'S' ≠ chr 'G' ∧ chr 'S' ≠ chr 'W' ∧ chr 'L' ≠ chr 'G' ∧ chr 'L' ≠ chr 'W' ∧ chr 'E' ≠ chr 'G' ∧
      chr 'E' ≠ chr 'W' ∧ chr 'G' ≠ chr 'W' ∧ chr 'W' ≠ chr 'G' ∧ chr 'I' ≠ chr 'G' ∧ chr 'I' ≠ chr 'W' := by
    decide
  obtain ⟨hSG,hSW,hLG,hLW,hEG,hEW,hGW,hWG,hIG,hIW⟩ := hkeys
  unfold readDbLine
  dsimp only
  by_cases hS : charAt line 0 = chr 'S'
  · rw [if_pos hS,hS,if_neg hSG,if_neg hSW]
    exact ⟨rfl,rfl⟩
  by_cases hL : charAt line 0 = chr 'L'
  · rw [if_neg hS,if_pos hL,hL,if_neg hLG,if_neg hLW]
    exact ⟨rfl,rfl⟩
  by_cases hE : charAt line 0 = chr 'E'
  · rw [if_neg hS,if_neg hL,if_pos hE,hE,if_neg hEG,if_neg hEW]
    obtain ⟨hevolves,hlists⟩ := evolves_addPropertyFromString d (line.drop 2)
    have hmark : ∀ key : Option CString, (key.elim (addPropertyFromString d (line.drop 2)).1
        (addPropertyFromString d (line.drop 2)).1.markStored).lists = d.lists ∧
        (key.elim (addPropertyFromString d (line.drop 2)).1
          (addPropertyFromString d (line.drop 2)).1.markStored).kept = d.kept := by
      rintro (_ | key)
      · exact ⟨hlists,hevolves.kept⟩
      · exact ⟨hlists,hevolves.kept⟩
    obtain ⟨hl,hk⟩ := hmark (addPropertyFromString d (line.drop 2)).2
    exact ⟨congrArg (·.2.1) hl,congrArg (·.2.2.2.2) hk⟩
  by_cases hG : charAt line 0 = chr 'G'
  · rw [if_neg hS,if_neg hL,if_neg hE,if_pos hG,if_pos hG,hG,if_neg hGW]
    exact ⟨rfl,congrArg (·.2.2.2.2) (kept_addTag d (line.drop 2))⟩
  by_cases hW : charAt line 0 = chr 'W'
  · rw [if_neg hS,if_neg hL,if_neg hE,if_neg hG,if_pos hW,if_neg hG,if_pos hW]
    exact ⟨rfl,rfl⟩
  rw [if_neg hS,if_neg hL,if_neg hE,if_neg hG,if_neg hW,if_neg hG,if_neg hW]
  split_ifs
  · exact ⟨rfl,rfl⟩
  · exact ⟨rfl,rfl⟩

theorem readDbLine_node (d : Device) (line : CString) :
    (readDbLine d line).devnode = d.devnode ∧ (readDbLine d line).devnum = d.devnum := by
  obtain ⟨hevolves,-⟩ := evolves_addPropertyFromString d (line.drop 2)
  have hkept := hevolves.kept
  have htag := kept_addTag d (line.drop 2)
  unfold readDbLine
  dsimp only
  split_ifs
  · exact ⟨rfl,rfl⟩
  · exact ⟨rfl,rfl⟩
  · cases (addPropertyFromString d (line.drop 2)).2 with
    | none => exact ⟨congrArg (·.1) hkept,congrArg (·.2.2.1) hkept⟩
    | some key => exact ⟨congrArg (·.1) hkept,congrArg (·.2.2.1) hkept⟩
  · exact ⟨congrArg (·.1) htag,congrArg (·.2.2.1) htag⟩
  · exact ⟨rfl,rfl⟩
  · exact ⟨rfl,rfl⟩
  · exact ⟨rfl,rfl⟩

theorem readDbLoop_node (fuel : ℕ) (file : List UInt8) (d : Device) :
    (readDbLoop fuel file d).devnode = d.devnode ∧ (readDbLoop fuel file d).devnum = d.devnum := by
  induction fuel generalizing file d with
  | zero => exact ⟨rfl,rfl⟩
  | succ fuel ih =>
    rw [readDbLoop]
    split
    · exact ⟨rfl,rfl⟩
    · next line rest _ =>
      split_ifs
      · exact ⟨rfl,rfl⟩
      · have hline := readDbLine_node d line.dropLast
        have hrest := ih rest (readDbLine d line.dropLast)
        exact ⟨hrest.1.trans hline.1,hrest.2.trans hline.2⟩

theorem udevDeviceReadDb_node (s : RunDir) (id : CString) (d : Device) :
    (udevDeviceReadDb s id d).devnode = d.devnode ∧ (udevDeviceReadDb s id d).devnum = d.devnum := by
  unfold udevDeviceReadDb
  cases s.data id with
  | none => exact ⟨rfl,rfl⟩
  | some file => exact readDbLoop_node _ _ _

theorem mem_tags_foldl (lines : List CString) (d : Device) (t : CString) :
    t ∈ tagNames (lines.foldl readDbLine d) ↔
      t ∈ tagNames d ∨ ∃ line ∈ lines, charAt line 0 = chr 'G' ∧ line.drop 2 = t ∧ ValidTag t := by
  induction lines generalizing d with
  | nil => simp
  | cons line lines ih =>
    have hline : t ∈ tagNames (readDbLine d line) ↔
        t ∈ tagNames d ∨ charAt line 0 = chr 'G' ∧ line.drop 2 = t ∧ ValidTag t := by
      rw [tagNames,(readDbLine_fields d line).1]
      by_cases hG : charAt line 0 = chr 'G'
      · rw [if_pos hG,mem_addTag]
        constructor
        · rintro (⟨rfl,hvalid⟩ | hmem)
          · exact Or.inr ⟨hG,rfl,hvalid⟩
          · exact Or.inl hmem
        · rintro (hmem | ⟨-,rfl,hvalid⟩)
          · exact Or.inr hmem
          · exact Or.inl ⟨rfl,hvalid⟩
      · simp [hG,tagNames]
    rw [List.foldl_cons,ih,hline,List.exists_mem_cons_iff,or_assoc]

theorem watch_foldl {lines : List CString} (h : ∀ line ∈ lines, charAt line 0 ≠ chr 'W') (d : Device) :
    (lines.foldl readDbLine d).watchHandle = d.watchHandle := by
  induction lines generalizing d with
  | nil => rfl
  | cons line lines ih =>
    rw [List.foldl_cons,ih fun x hx => h x (List.mem_cons_of_mem _ hx),(readDbLine_fields d line).2,
      if_neg (h line List.mem_cons_self)]

/-- The line of the watch and those of the tags among the lines of the file. -/
theorem dbLines_split (d : Device) :
    ∃ pre post, dbLines d = pre ++ (if major d.devnum > 0 ∧ d.watchHandle ≥ 0 then [dbLine 'W' (printInt d.watchHandle)]
        else []) ++ post ++ (tagNames d).map (dbLine 'G') ∧
      ∀ line ∈ pre ++ post, charAt line 0 ≠ chr 'W' ∧ charAt line 0 ≠ chr 'G' := by
  have hkey : ∀ (key : Char) (val : CString), charAt (dbLine key val) 0 = chr key := fun _ _ => rfl
  have hkeys : ∀ key ∈ ['S','L','I','E'], chr key ≠ chr 'W' ∧ chr key ≠ chr 'G' := by simp [chr]
  let rest := (if d.usecInitialized > 0 then [dbLine 'I' (printNat d.usecInitialized)] else []) ++
    (stored d.sync.propertiesList).map (fun e => dbLine 'E' (e.name ++ str "=" ++ e.value.getD []))
  have hrest : ∀ line ∈ rest, charAt line 0 ≠ chr 'W' ∧ charAt line 0 ≠ chr 'G' := by
    intro line hline
    rcases List.mem_append.mp hline with hline | hline
    · obtain ⟨-,rfl⟩ : d.usecInitialized > 0 ∧ line = dbLine 'I' (printNat d.usecInitialized) := by simpa using hline
      exact hkeys 'I' (by decide)
    · obtain ⟨e,-,rfl⟩ := List.mem_map.mp hline
      exact hkeys 'E' (by decide)
  by_cases hmajor : major d.devnum > 0
  · let pre := d.devlinksList.map (fun e => dbLine 'S' (e.name.drop 5)) ++
      (if d.devlinkPriority ≠ 0 then [dbLine 'L' (printInt d.devlinkPriority)] else [])
    refine ⟨pre,rest,by simp [dbLines,pre,rest,hmajor,tagNames],?_⟩
    intro line hline
    rcases List.mem_append.mp hline with hline | hline
    · rcases List.mem_append.mp hline with hline | hline
      · obtain ⟨e,-,rfl⟩ := List.mem_map.mp hline
        exact hkeys 'S' (by decide)
      · obtain ⟨-,rfl⟩ : d.devlinkPriority ≠ 0 ∧ line = dbLine 'L' (printInt d.devlinkPriority) := by simpa using hline
        exact hkeys 'L' (by decide)
    · exact hrest line hline
  · refine ⟨[],rest,by simp [dbLines,rest,hmajor,tagNames],?_⟩
    intro line hline
    exact hrest line (by simpa using hline)

/-- The tags and the watch that are read from a file whose lines are read as they were written. -/
theorem readDb_dbLines {d : Device} (hok : ∀ line ∈ dbLines d, LineOk line) (hvalid : ValidTags d) (d₀ : Device) :
    (∀ t, t ∈ tagNames (readDb d₀ (dbFile (dbLines d))) ↔ t ∈ tagNames d₀ ∨ t ∈ tagNames d) ∧
      (d.watchHandle < 2^31 → (readDb d₀ (dbFile (dbLines d))).watchHandle =
        if major d.devnum > 0 ∧ d.watchHandle ≥ 0 then d.watchHandle else d₀.watchHandle) := by
  obtain ⟨pre,post,hlines,hkeys⟩ := dbLines_split d
  have hWG : chr 'W' ≠ chr 'G' := by decide
  have htagline : ∀ line ∈ (tagNames d).map (dbLine 'G'), charAt line 0 = chr 'G' ∧ line.drop 2 ∈ tagNames d := by
    intro line hline
    obtain ⟨t,ht,rfl⟩ := List.mem_map.mp hline
    exact ⟨rfl,ht⟩
  rw [readDb_lines hok]
  refine ⟨fun t => ?_,fun hwatch => ?_⟩
  · rw [mem_tags_foldl]
    refine or_congr_right ⟨?_,?_⟩
    · rintro ⟨line,hline,hG,rfl,-⟩
      rw [hlines,List.mem_append,List.mem_append,List.mem_append] at hline
      rcases hline with ((hline | hline) | hline) | hline
      · exact absurd hG (hkeys line (List.mem_append_left _ hline)).2
      · obtain ⟨-,rfl⟩ : (major d.devnum > 0 ∧ d.watchHandle ≥ 0) ∧ line = dbLine 'W' (printInt d.watchHandle) := by
          simpa using hline
        exact absurd hG hWG
      · exact absurd hG (hkeys line (List.mem_append_right _ hline)).2
      · exact (htagline line hline).2
    · intro ht
      refine ⟨dbLine 'G' t,?_,rfl,rfl,hvalid t ht⟩
      rw [hlines]
      exact List.mem_append_right _ (List.mem_map_of_mem ht)
  · have hpost : ∀ line ∈ post ++ (tagNames d).map (dbLine 'G'), charAt line 0 ≠ chr 'W' := by
      intro line hline
      rcases List.mem_append.mp hline with hline | hline
      · exact (hkeys line (List.mem_append_right _ hline)).1
      · rw [(htagline line hline).1]
        exact hWG.symm
    rw [hlines,List.append_assoc,List.foldl_append,watch_foldl hpost,List.foldl_append]
    have hpre := watch_foldl (fun line hline => (hkeys line (List.mem_append_left _ hline)).1) d₀
    by_cases hnode : major d.devnum > 0 ∧ d.watchHandle ≥ 0
    · rw [if_pos hnode,if_pos hnode,List.foldl_cons,List.foldl_nil,(readDbLine_fields _ _).2]
      have hrange : -2^31 ≤ d.watchHandle := by
        have := hnode.2
        omega
      exact (if_pos rfl).trans (atoi_printInt hrange hwatch)
    · rw [if_neg hnode,if_neg hnode]
      exact hpre

theorem readDb_written {d : Device} {file : List UInt8} (hfile : updateDb d = some file)
    (hok : ∀ line ∈ dbLines d, LineOk line) (hvalid : ValidTags d) (d₀ : Device) :
    (∀ t, t ∈ tagNames (readDb d₀ file) ↔ t ∈ tagNames d₀ ∨ t ∈ tagNames d) ∧
      (d.watchHandle < 2^31 → (readDb d₀ file).watchHandle =
        if major d.devnum > 0 ∧ d.watchHandle ≥ 0 then d.watchHandle else d₀.watchHandle) := by
  rw [updateDb] at hfile
  split_ifs at hfile with hnone hinfo
  · obtain rfl := Option.some.inj hfile
    exact readDb_dbLines hok hvalid d₀
  · obtain rfl := Option.some.inj hfile
    simp only [hasInfo,Bool.or_eq_true,decide_eq_true_eq,not_or,not_not] at hinfo
    obtain ⟨⟨-,htags⟩,hneg⟩ := hinfo
    have hread : readDb d₀ [] = d₀ := rfl
    rw [hread]
    exact ⟨by simp [tagNames,htags],by simp [hneg]⟩

theorem updateDb_eq_none {d : Device} (h : updateDb d = none) : tagNames d = [] ∧ major d.devnum = 0 := by
  rw [updateDb] at h
  split_ifs at h with hnone
  simp only [hasInfo,Bool.or_eq_false_iff,decide_eq_false_iff_not,not_not] at hnone
  exact ⟨by simp [tagNames,hnone.1.1.2],hnone.2.1⟩

end Read

section Frames

theorem foldl_tag_frame (ts : List CString) (add : Bool) (s : RunDir) (id : CString) :
    (ts.foldl (udevDeviceTag · id · add) s).data = s.data ∧ (ts.foldl (udevDeviceTag · id · add) s).watch = s.watch ∧
      (ts.foldl (udevDeviceTag · id · add) s).inotify = s.inotify := by
  induction ts generalizing s with
  | nil => exact ⟨rfl,rfl,rfl⟩
  | cons t ts ih =>
    obtain ⟨hdata,hwatch,hinotify⟩ := ih (udevDeviceTag s id t add)
    have hone : (udevDeviceTag s id t add).data = s.data ∧ (udevDeviceTag s id t add).watch = s.watch ∧
        (udevDeviceTag s id t add).inotify = s.inotify := by
      unfold udevDeviceTag
      dsimp only
      split_ifs <;> exact ⟨rfl,rfl,rfl⟩
    rw [List.foldl_cons]
    exact ⟨hdata.trans hone.1,hwatch.trans hone.2.1,hinotify.trans hone.2.2⟩

theorem tagIndex_frame (s : RunDir) (id : CString) (dev : Device) (devOld : Option Device) (add : Bool) :
    (udevDeviceTagIndex s id dev devOld add).data = s.data ∧ (udevDeviceTagIndex s id dev devOld add).watch = s.watch ∧
      (udevDeviceTagIndex s id dev devOld add).inotify = s.inotify := by
  unfold udevDeviceTagIndex
  extract_lets left
  obtain ⟨hdata,hwatch,hinotify⟩ := foldl_tag_frame (tagNames dev) add left id
  have hleft : left.data = s.data ∧ left.watch = s.watch ∧ left.inotify = s.inotify := by
    unfold left
    split
    · split_ifs
      · exact foldl_tag_frame _ false s id
      · exact ⟨rfl,rfl,rfl⟩
    · exact ⟨rfl,rfl,rfl⟩
  exact ⟨hdata.trans hleft.1,hwatch.trans hleft.2.1,hinotify.trans hleft.2.2⟩

theorem watchEnd_frame (s : RunDir) (d : Device) :
    (udevWatchEnd s d).1.tags = s.tags ∧ (udevWatchEnd s d).1.data = s.data ∧ tagNames (udevWatchEnd s d).2 = tagNames d := by
  unfold udevWatchEnd
  split_ifs <;> exact ⟨rfl,rfl,rfl⟩

theorem watchBegin_frame (canWatch : Bool) (s : RunDir) (id : CString) (d : Device) :
    (udevWatchBegin canWatch s id d).1.tags = s.tags ∧ (udevWatchBegin canWatch s id d).1.data = s.data := by
  unfold udevWatchBegin
  split
  · exact ⟨rfl,rfl⟩
  · split_ifs <;> exact ⟨rfl,rfl⟩

theorem sync_watchHandle (d : Device) (wd : ℤ) :
    ({ d with watchHandle := wd } : Device).sync = { d.sync with watchHandle := wd } := by
  have hlinks : ({ d with watchHandle := wd } : Device).syncDevlinks = { d.syncDevlinks with watchHandle := wd } := by
    unfold syncDevlinks
    dsimp only
    split_ifs <;> rfl
  rw [sync,hlinks,sync]
  unfold syncTags
  dsimp only
  split_ifs <;> rfl

theorem dbLines_watchHandle (d : Device) (wd : ℤ) :
    ∀ line ∈ dbLines { d with watchHandle := wd }, line ∈ dbLines d ∨ line = dbLine 'W' (printInt wd) := by
  intro line hline
  simp only [dbLines,sync_watchHandle] at hline ⊢
  split_ifs at hline ⊢ <;> simp only [List.mem_append,List.mem_singleton,List.not_mem_nil] at hline ⊢ <;> tauto

theorem watchBegin_device (canWatch : Bool) (s : RunDir) (id : CString) (d : Device) :
    ∃ wd, (udevWatchBegin canWatch s id d).2 = { d with watchHandle := wd } := by
  unfold udevWatchBegin
  split
  · exact ⟨d.watchHandle,rfl⟩
  · split_ifs
    · exact ⟨_,rfl⟩
    · exact ⟨d.watchHandle,rfl⟩

end Frames

section Execute

variable {σ : Type} {h : Host σ} {u : Uevent σ} {s : RunDir} {id : CString}

def oldDevice (u : Uevent σ) (s : RunDir) (id : CString) : RunDir × Device :=
  let devDb := (Device.setSyspath {} u.event.dev.syspath).setSubsystem (u.event.dev.subsystem.getD [])
  let devDb := udevDeviceReadDb s id devDb
  if major u.event.dev.devnum ≠ 0 then udevWatchEnd s devDb else (s,devDb)

theorem oldDevice_frame (u : Uevent σ) (s : RunDir) (id : CString) :
    (oldDevice u s id).1.tags = s.tags ∧ (oldDevice u s id).1.data = s.data ∧
      tagNames (oldDevice u s id).2 = tagNames (udevDeviceReadDb s id
        ((Device.setSyspath {} u.event.dev.syspath).setSubsystem (u.event.dev.subsystem.getD []))) := by
  unfold oldDevice
  dsimp only
  split_ifs
  · exact watchEnd_frame _ _
  · exact ⟨rfl,rfl,rfl⟩

/-- The device as the rules, the renaming and the kept time leave it, which is the one that is written. -/
def ruledDevice (h : Host σ) (u : Uevent σ) (s : RunDir) (id : CString) : Device :=
  let old := (oldDevice u s id).2
  keepUsec u old (renameNetif u (applyToEvent h u.rules { u.event with devDb := some old } u.host)).dev

def removedDevice (h : Host σ) (u : Uevent σ) (s : RunDir) (id : CString) : Device :=
  let dev := udevDeviceReadDb s id u.event.dev
  let left := udevDeviceTagIndex (udevDeviceDeleteDb s id) id dev none false
  let r := if major dev.devnum ≠ 0 then udevWatchEnd left dev else (left,dev)
  (applyToEvent h u.rules { u.event with dev := r.2 } u.host).dev

theorem renameNetif_fields (u : Uevent σ) (ev : Event) :
    (renameNetif u ev).dev.lists = ev.dev.lists ∧ (renameNetif u ev).dev.kept = ev.dev.kept := by
  unfold renameNetif
  split
  · exact ⟨rfl,rfl⟩
  · dsimp only
    split_ifs <;> exact ⟨rfl,rfl⟩

theorem keepUsec_fields (u : Uevent σ) (devDb d : Device) :
    (keepUsec u devDb d).lists = d.lists ∧ (keepUsec u devDb d).kept = d.kept := by
  unfold keepUsec
  split_ifs <;> exact ⟨rfl,rfl⟩

/-- What the handling of any event but a removal leaves: the database and the index of the device
as the rules left it. -/
theorem execute_other (hid : Symlinks.idFilename u.event.dev = some id) (haction : u.event.dev.action ≠ some .remove) :
    (udevEventExecuteRules h u s).1.dev = ruledDevice h u s id ∧ (ruledDevice h u s id).kept = u.event.dev.kept ∧
      (ValidTags u.event.dev → ValidTags (ruledDevice h u s id)) ∧ (udevEventExecuteRules h u s).2 =
        udevDeviceTagIndex (udevDeviceUpdateDb (oldDevice u s id).1 id (ruledDevice h u s id)) id (ruledDevice h u s id)
          (some (oldDevice u s id).2) true := by
  obtain ⟨ev,hev⟩ : ∃ ev, applyToEvent h u.rules { u.event with devDb := some (oldDevice u s id).2 } u.host = ev :=
    ⟨_,rfl⟩
  have hruled : ruledDevice h u s id = keepUsec u (oldDevice u s id).2 (renameNetif u ev).dev := by
    rw [← hev]
    rfl
  have hevolves : Evolves (fun _ => True) u.event.dev ev.dev := by
    rw [← hev]
    exact applyToEvent_evolves (h := h) { u.event with devDb := some (oldDevice u s id).2 } u.host
  have hname := renameNetif_fields u ev
  have husec := keepUsec_fields u (oldDevice u s id).2 (renameNetif u ev).dev
  have heq : udevEventExecuteRules h u s = ({ renameNetif u ev with dev := ruledDevice h u s id, devDb := none },
      udevDeviceTagIndex (udevDeviceUpdateDb (oldDevice u s id).1 id (ruledDevice h u s id)) id (ruledDevice h u s id)
        (some (oldDevice u s id).2) true) := by
    rw [udevEventExecuteRules,hid,hruled]
    simp only [if_neg haction,← hev]
    rfl
  rw [heq]
  refine ⟨rfl,?_,fun hvalid => ?_,rfl⟩
  · rw [hruled]
    exact husec.2.trans (hname.2.trans hevolves.kept)
  · have htags := hevolves.invariant (fun _ _ hchange => validTags_change hchange) hvalid
    have hlist : (ruledDevice h u s id).tagsList = ev.dev.tagsList := by
      rw [hruled]
      exact congrArg (·.2.1) (husec.1.trans hname.1)
    intro t ht
    rw [hlist] at ht
    exact htags t ht

/-- A removal leaves no database, and of the index what the database did not name. -/
theorem execute_remove (hid : Symlinks.idFilename u.event.dev = some id) (haction : u.event.dev.action = some .remove) :
    (udevEventExecuteRules h u s).1.dev = removedDevice h u s id ∧ (udevEventExecuteRules h u s).2 =
      let dev := udevDeviceReadDb s id u.event.dev
      let s := udevDeviceTagIndex (udevDeviceDeleteDb s id) id dev none false
      (if major dev.devnum ≠ 0 then udevWatchEnd s dev else (s,dev)).1 := by
  rw [udevEventExecuteRules,hid]
  simp only [if_pos haction,removedDevice,and_self]

theorem removedDevice_node : (removedDevice h u s id).devnode = u.event.dev.devnode ∧
    (removedDevice h u s id).devnum = u.event.dev.devnum := by
  have hread := udevDeviceReadDb_node s id u.event.dev
  unfold removedDevice
  extract_lets dev left r
  have hr : r.2.devnode = dev.devnode ∧ r.2.devnum = dev.devnum := by
    unfold r udevWatchEnd
    split_ifs <;> exact ⟨rfl,rfl⟩
  have hevolves : Evolves (fun _ => True) r.2 (applyToEvent h u.rules { u.event with dev := r.2 } u.host).dev :=
    applyToEvent_evolves { u.event with dev := r.2 } u.host
  exact ⟨(congrArg (·.1) hevolves.kept).trans (hr.1.trans hread.1),
    (congrArg (·.2.2.1) hevolves.kept).trans (hr.2.trans hread.2)⟩

end Execute

end ExecuteRules
end Udev
