import Udev.CString
import Udev.Hashmap
import Mathlib.Data.List.Sort
import Mathlib.Data.List.TakeWhile

/-! The configuration files of a list of directories: the files with a suffix, one of each
name and that of the earliest directory, in the order of their names. -/
namespace Udev
namespace ConfFiles

open CString Hashmap

inductive DType where
  | DT_UNKNOWN | DT_FIFO | DT_CHR | DT_DIR | DT_BLK | DT_REG | DT_LNK | DT_SOCK
deriving DecidableEq, Repr

structure Dirent where
  dType : DType
  dName : CString
deriving DecidableEq, Repr

def ENOENT : ℕ := 2

def ENOMEM : ℕ := 12

/-- The calls into the file system. An error is its `errno`; the entries of a directory come in
the order of `readdir`, with the `errno` at the end of them. -/
structure FileSystem where
  canonicalizeFileName : CString → Except ℕ CString
  opendir : CString → Except ℕ (List Dirent × ℕ)

def endswith (s post : CString) : Bool := post.isSuffixOf s

def ignoreFileAllowBackup (filename : CString) : Bool :=
  charAt filename 0 == chr '.' ||
    (filename == str "lost+found" || filename == str "aquota.user" || filename == str "aquota.group") ||
    [str ".rpmnew",str ".rpmsave",str ".rpmorig",str ".dpkg-old",str ".dpkg-new",str ".swp"].any (endswith filename)

def direntIsFileWithSuffix (de : Dirent) (suffix : CString) : Bool :=
  if de.dType ≠ .DT_REG ∧ de.dType ≠ .DT_LNK ∧ de.dType ≠ .DT_UNKNOWN then false
  else if ignoreFileAllowBackup de.dName then false
  else endswith de.dName suffix

/-- The part of a path behind its last slash. -/
def basename (path : CString) : CString := (path.reverse.takeWhile (· ≠ chr '/')).reverse

def pathIsAbsolute (p : CString) : Bool := charAt p 0 == chr '/'

theorem length_component {s : CString} (h : s.dropWhile (· = chr '/') ≠ []) :
    ((s.dropWhile (· = chr '/')).drop ((s.dropWhile (· = chr '/')).takeWhile (· ≠ chr '/')).length).length <
      s.length := by
  have hle := List.length_dropWhile_le (· = chr '/') s
  have hhead : ∀ c t, s.dropWhile (· = chr '/') = c::t → c ≠ chr '/' := by
    intro c t heq
    have := List.head_dropWhile_not (· = chr '/') (l := s) h
    simpa [heq] using this
  cases hrest : s.dropWhile (· = chr '/') with
  | nil => exact absurd hrest h
  | cons c t =>
    have hc := hhead c t hrest
    rw [hrest] at hle
    rw [List.takeWhile_cons_of_pos (by simpa using hc),List.length_cons,List.drop_succ_cons,List.length_drop]
    simp only [List.length_cons] at hle
    omega

/-- The loop of `path_startswith`. -/
def pathStartswithLoop (path pre : CString) : Option CString :=
  let path := path.dropWhile (· = chr '/')
  let pre := pre.dropWhile (· = chr '/')
  if pre = [] then some path
  else if path = [] then none
  else
    let a := path.takeWhile (· ≠ chr '/')
    let b := pre.takeWhile (· ≠ chr '/')
    if a = b then pathStartswithLoop (path.drop a.length) (pre.drop b.length) else none
termination_by pre.length
decreasing_by
  exact length_component ‹¬pre = []›

def pathStartswith (path pre : CString) : Option CString :=
  if pathIsAbsolute path = pathIsAbsolute pre then pathStartswithLoop path pre else none

section Paths

variable (fs : FileSystem)

/-- One pass of the loop of `path_strv_canonicalize_absolute`: the path that is kept, and
whether memory ran out. -/
def canonicalizeAbsolute (root : Option CString) (s : CString) : Option CString × Bool :=
  if !pathIsAbsolute s then (none,false)
  else
    match fs.canonicalizeFileName ((root.getD []) ++ s) with
    | .error errno =>
      if errno = ENOENT then (some s,false) else (none,errno = ENOMEM || errno = 0)
    | .ok u =>
      match root with
      | none => (some u,false)
      | some root =>
        match pathStartswith u root with
        | some x => (some (if startswith x (str "/") then x else chr '/'::x),false)
        | none => (some s,false)

/-- `none` when memory ran out. -/
def pathStrvCanonicalizeAbsolute (root : Option CString) (l : List CString) : Option (List CString) :=
  let results := l.map (canonicalizeAbsolute fs root)
  if results.any (·.2) then none else some (results.filterMap (·.1))

def strvRemove (l : List CString) (s : CString) : List CString := l.filter (· ≠ s)

def strvUniq : List CString → List CString
  | [] => []
  | s::l => s::strvUniq (strvRemove l s)
termination_by l => l.length
decreasing_by exact Nat.lt_succ_of_le (List.length_filter_le _ l)

def pathStrvCanonicalizeAbsoluteUniq (root : Option CString) (l : List CString) : Option (List CString) :=
  if l = [] then some l else (pathStrvCanonicalizeAbsolute fs root l).map strvUniq

end Paths

section List

variable {κ : Type*} (hash : CString → κ → ℕ) (random : ℕ → κ) (fs : FileSystem)

/-- The files of `files_add`; the random key of a growing table is by the entries that it has. -/
def filesPut (h : Hashmap κ CString CString) (dirpath : CString) (de : Dirent) : Hashmap κ CString CString :=
  let p := dirpath ++ str "/" ++ de.dName
  (hashmapPut hash h (random h.iterateList.length) (basename p) p).2

def filesAdd (h : Hashmap κ CString CString) (dirpath suffix : CString) : ℤ × Hashmap κ CString CString :=
  match fs.opendir dirpath with
  | .error errno => (if errno = ENOENT then 0 else -errno,h)
  | .ok (entries,errno) =>
    (-errno,(entries.filter (direntIsFileWithSuffix · suffix)).foldl (filesPut hash random · dirpath) h)

/-- `STRV_FOREACH(p, dirs)`; `none` when memory ran out. -/
def filesAddAll (suffix : CString) : List CString → Hashmap κ CString CString → Option (Hashmap κ CString CString)
  | [], h => some h
  | p::dirs, h =>
    let r := filesAdd hash random fs h p suffix
    if r.1 = -ENOMEM then none else filesAddAll suffix dirs r.2

/-- `qsort_safe` with `base_cmp`; the names of all files differ. -/
def sortFiles (files : List CString) : List CString := files.insertionSort fun s1 s2 => basename s1 ≤ basename s2

def confFilesListStrv (key : κ) (suffix : CString) (root : Option CString) (dirs : List CString) :
    Except ℤ (List CString) :=
  match pathStrvCanonicalizeAbsoluteUniq fs root dirs with
  | none => .error (-ENOMEM)
  | some dirs =>
    match filesAddAll hash random fs suffix dirs (hashmapNew key) with
    | none => .error (-ENOMEM)
    | some fh => .ok (sortFiles (hashmapGetStrv fh))

end List

section Select

variable {fs : FileSystem} {suffix : CString} {dirs : List CString}

/-- The names differ from directory to directory, so the key is the name of the file. -/
theorem basename_join {d name : CString} (h : chr '/' ∉ name) : basename (d ++ str "/" ++ name) = name := by
  have hpos : ∀ c ∈ name.reverse, decide (c ≠ chr '/') = true := by
    intro c hc
    have hne : c ≠ chr '/' := fun heq => h (heq ▸ List.mem_reverse.mp hc)
    simpa using hne
  have hslash : str "/" = [chr '/'] := rfl
  rw [basename,List.reverse_append,List.reverse_append,hslash,List.takeWhile_append_of_pos hpos]
  simp

/-- The directories exist: their paths are canonicalized and their entries read without an error. -/
def Existing (fs : FileSystem) (dirs : List CString) : Prop :=
  ∀ d ∈ dirs, pathIsAbsolute d → ∃ u entries, fs.canonicalizeFileName d = .ok u ∧ fs.opendir u = .ok (entries,0) ∧
    ∀ de ∈ entries, chr '/' ∉ de.dName

/-- The files of a directory with the path `u`, by their names. -/
def candidates (fs : FileSystem) (suffix u : CString) : List (CString × CString) :=
  match fs.opendir u with
  | .error _ => []
  | .ok (entries,_) => (entries.filter (direntIsFileWithSuffix · suffix)).map fun de => (de.dName,u ++ str "/" ++ de.dName)

def Readable (fs : FileSystem) (u : CString) : Prop :=
  ∃ entries, fs.opendir u = .ok (entries,0) ∧ ∀ de ∈ entries, chr '/' ∉ de.dName

variable {κ : Type*} {hash : CString → κ → ℕ} {random : ℕ → κ}

theorem foldl_filesPut {u : CString} {entries : List Dirent} (hnames : ∀ de ∈ entries, chr '/' ∉ de.dName)
    {h : Hashmap κ CString CString} (hh : Hashed hash h) :
    Hashed hash (entries.foldl (filesPut hash random · u) h) ∧
      (entries.foldl (filesPut hash random · u) h).iterateList =
        (entries.map fun de => (de.dName,u ++ str "/" ++ de.dName)).foldl keepFirst h.iterateList := by
  induction entries generalizing h with
  | nil => exact ⟨hh,rfl⟩
  | cons de entries ih =>
    obtain ⟨hput,hlist⟩ :=
      iterateList_hashmapPut hh (random h.iterateList.length) (de.dName,u ++ str "/" ++ de.dName)
    have hfiles : filesPut hash random h u de =
        (hashmapPut hash h (random h.iterateList.length) de.dName (u ++ str "/" ++ de.dName)).2 := by
      rw [filesPut,basename_join (hnames de List.mem_cons_self)]
    rw [← hfiles] at hput hlist
    rw [List.foldl_cons,List.map_cons,List.foldl_cons,← hlist]
    exact ih (fun de' hde => hnames de' (List.mem_cons_of_mem _ hde)) hput

theorem filesAdd_spec {u : CString} (hu : Readable fs u) {h : Hashmap κ CString CString} (hh : Hashed hash h) :
    (filesAdd hash random fs h u suffix).1 = 0 ∧ Hashed hash (filesAdd hash random fs h u suffix).2 ∧
      (filesAdd hash random fs h u suffix).2.iterateList = (candidates fs suffix u).foldl keepFirst h.iterateList := by
  obtain ⟨entries,hopen,hnames⟩ := hu
  rw [filesAdd,candidates,hopen]
  exact ⟨rfl,foldl_filesPut (fun de hde => hnames de (List.mem_filter.mp hde).1) hh⟩

theorem filesAddAll_spec {ds : List CString} (hds : ∀ u ∈ ds, Readable fs u) {h : Hashmap κ CString CString}
    (hh : Hashed hash h) :
    ∃ fh, filesAddAll hash random fs suffix ds h = some fh ∧ Hashed hash fh ∧
      fh.iterateList = (ds.flatMap (candidates fs suffix)).foldl keepFirst h.iterateList := by
  induction ds generalizing h with
  | nil => exact ⟨h,rfl,hh,rfl⟩
  | cons u ds ih =>
    obtain ⟨hres,hadd,hlist⟩ := @filesAdd_spec fs suffix κ hash random u (hds u List.mem_cons_self) h hh
    obtain ⟨fh,hall,hfh,hlist'⟩ := ih (fun v hv => hds v (List.mem_cons_of_mem _ hv)) hadd
    refine ⟨fh,?_,hfh,?_⟩
    · rw [filesAddAll]
      simp only [hres]
      exact hall
    · rw [hlist',hlist,List.flatMap_cons,List.foldl_append]

theorem findSome_strvRemove {β : Type*} {f : CString → Option β} {s : CString} (hs : f s = none) (l : List CString) :
    (strvRemove l s).findSome? f = l.findSome? f := by
  induction l with
  | nil => rfl
  | cons x l ih =>
    rw [strvRemove,List.filter_cons]
    by_cases hx : x = s
    · rw [if_neg (by simpa using hx),List.findSome?_cons_of_isNone (by rw [hx,hs]; rfl)]
      exact ih
    · rw [if_pos (by simpa using hx),List.findSome?_cons,List.findSome?_cons]
      cases f x with
      | none => exact ih
      | some b => rfl

/-- A directory that comes again has no file that the first one does not have. -/
theorem findSome_strvUniq {β : Type*} (f : CString → Option β) (l : List CString) :
    (strvUniq l).findSome? f = l.findSome? f := by
  induction l using strvUniq.induct with
  | case1 => simp [strvUniq]
  | case2 s l ih =>
    rw [strvUniq,List.findSome?_cons,List.findSome?_cons,ih]
    cases hs : f s with
    | none => exact findSome_strvRemove hs l
    | some b => rfl

theorem findSome_filterMap {α β γ : Type*} (g : α → Option β) (f : β → Option γ) (l : List α) :
    (l.filterMap g).findSome? f = l.findSome? fun x => (g x).bind f := by
  induction l with
  | nil => rfl
  | cons x l ih =>
    cases hx : g x with
    | none => rw [List.filterMap_cons_none hx,ih,List.findSome?_cons_of_isNone (by rw [hx]; rfl)]
    | some b =>
      rw [List.filterMap_cons_some hx,List.findSome?_cons,List.findSome?_cons,hx,ih]
      rfl

/-- A file that is looked at: in a directory of the list, with the suffix, and neither hidden nor a
backup. -/
def InDirectory (fs : FileSystem) (suffix d u name : CString) : Prop :=
  pathIsAbsolute d ∧ fs.canonicalizeFileName d = .ok u ∧ ∃ entries errno, fs.opendir u = .ok (entries,errno) ∧
    ∃ de ∈ entries, de.dName = name ∧ direntIsFileWithSuffix de suffix

/-- The path that a name gets from a directory of the list. -/
def lookup (fs : FileSystem) (suffix name d : CString) : Option (CString × CString) :=
  (canonicalizeAbsolute fs none d).1.bind fun u => (candidates fs suffix u).find? (·.1 = name)

theorem canonicalize_existing (hdirs : Existing fs dirs) {d : CString} (hd : d ∈ dirs) :
    pathIsAbsolute d = false ∧ canonicalizeAbsolute fs none d = (none,false) ∨
      pathIsAbsolute d = true ∧ ∃ u, fs.canonicalizeFileName d = .ok u ∧ Readable fs u ∧
        canonicalizeAbsolute fs none d = (some u,false) := by
  cases habs : pathIsAbsolute d with
  | false => exact Or.inl ⟨rfl,by simp [canonicalizeAbsolute,habs]⟩
  | true =>
    obtain ⟨u,entries,hcanon,hopen,hnames⟩ := hdirs d hd habs
    exact Or.inr ⟨rfl,u,hcanon,⟨entries,hopen,hnames⟩,by simp [canonicalizeAbsolute,habs,hcanon]⟩

theorem mem_candidates {u : CString} {e : CString × CString} :
    e ∈ candidates fs suffix u ↔ e = (e.1,u ++ str "/" ++ e.1) ∧
      ∃ entries errno, fs.opendir u = .ok (entries,errno) ∧
        ∃ de ∈ entries, de.dName = e.1 ∧ direntIsFileWithSuffix de suffix := by
  rw [candidates]
  cases fs.opendir u with
  | error errno => simp
  | ok r =>
    obtain ⟨entries,errno⟩ := r
    simp only [List.mem_map,List.mem_filter]
    constructor
    · rintro ⟨de,⟨hde,hfile⟩,rfl⟩
      exact ⟨rfl,entries,errno,rfl,de,hde,rfl,hfile⟩
    · rintro ⟨he,entries',errno',heq,de,hde,hname,hfile⟩
      obtain ⟨rfl,rfl⟩ := Prod.mk.inj (Except.ok.inj heq)
      exact ⟨de,⟨hde,hfile⟩,by rw [he,hname]⟩

theorem find_candidates {u name : CString} {e : CString × CString} :
    (candidates fs suffix u).find? (·.1 = name) = some e ↔ e.1 = name ∧ e ∈ candidates fs suffix u := by
  constructor
  · intro hfind
    exact ⟨by simpa using List.find?_some hfind,List.mem_of_find?_eq_some hfind⟩
  · rintro ⟨rfl,hmem⟩
    have hsome : ((candidates fs suffix u).find? (·.1 = e.1)).isSome = true :=
      List.find?_isSome.mpr ⟨e,hmem,by simp⟩
    obtain ⟨x,hx⟩ := Option.isSome_iff_exists.mp hsome
    have hname : x.1 = e.1 := by simpa using List.find?_some hx
    rw [hx,(mem_candidates.mp hmem).1,(mem_candidates.mp (List.mem_of_find?_eq_some hx)).1,hname]

theorem lookup_eq_some (hdirs : Existing fs dirs) {d name : CString} (hd : d ∈ dirs) {e : CString × CString} :
    lookup fs suffix name d = some e ↔ ∃ u, InDirectory fs suffix d u name ∧ e = (name,u ++ str "/" ++ name) := by
  rw [lookup]
  rcases canonicalize_existing hdirs hd with ⟨habs,heq⟩ | ⟨habs,u,hcanon,-,heq⟩
  · simp [heq,InDirectory,habs]
  · rw [heq,Option.bind_some,find_candidates,mem_candidates]
    constructor
    · rintro ⟨rfl,he,hin⟩
      exact ⟨u,⟨habs,hcanon,hin⟩,he⟩
    · rintro ⟨u',⟨-,hcanon',hin⟩,rfl⟩
      obtain rfl := Except.ok.inj (hcanon.symm.trans hcanon')
      exact ⟨rfl,rfl,hin⟩

theorem lookup_eq_none (hdirs : Existing fs dirs) {d name : CString} (hd : d ∈ dirs) :
    lookup fs suffix name d = none ↔ ∀ u, ¬InDirectory fs suffix d u name := by
  rw [Option.eq_none_iff_forall_ne_some]
  constructor
  · intro hnone u hin
    exact hnone _ ((lookup_eq_some hdirs hd).mpr ⟨u,hin,rfl⟩)
  · intro hnone e he
    obtain ⟨u,hin,-⟩ := (lookup_eq_some hdirs hd).mp he
    exact hnone u hin

end Select

section Result

variable {κ : Type*} {hash : CString → κ → ℕ} {random : ℕ → κ} {fs : FileSystem} {suffix : CString}
  {dirs : List CString}

theorem mem_strvUniq {l : List CString} {u : CString} (h : u ∈ strvUniq l) : u ∈ l := by
  induction l using strvUniq.induct with
  | case1 => simp [strvUniq] at h
  | case2 s l ih =>
    rw [strvUniq] at h
    rcases List.mem_cons.mp h with rfl | h
    · exact List.mem_cons_self
    · exact List.mem_cons_of_mem _ (List.mem_filter.mp (ih h)).1

/-- The directories of the list, each once and with its canonical path. -/
theorem canonicalized (hdirs : Existing fs dirs) :
    ∃ ds, pathStrvCanonicalizeAbsoluteUniq fs none dirs = some ds ∧ (∀ u ∈ ds, Readable fs u) ∧
      ∀ f : CString → Option (CString × CString),
        ds.findSome? f = dirs.findSome? fun d => (canonicalizeAbsolute fs none d).1.bind f := by
  rw [pathStrvCanonicalizeAbsoluteUniq]
  split_ifs with hnil
  · exact ⟨dirs,rfl,by simp [hnil],by simp [hnil]⟩
  · have hmemory : (dirs.map (canonicalizeAbsolute fs none)).any (·.2) = false := by
      rw [List.any_eq_false]
      intro r hr
      obtain ⟨d,hd,rfl⟩ := List.mem_map.mp hr
      rcases canonicalize_existing hdirs hd with ⟨-,heq⟩ | ⟨-,u,-,-,heq⟩
      · simp [heq]
      · simp [heq]
    refine ⟨strvUniq (dirs.filterMap fun d => (canonicalizeAbsolute fs none d).1),?_,?_,?_⟩
    · rw [pathStrvCanonicalizeAbsolute]
      simp only [hmemory,List.filterMap_map]
      rfl
    · intro u hu
      obtain ⟨d,hd,hcanon⟩ := List.mem_filterMap.mp (mem_strvUniq hu)
      rcases canonicalize_existing hdirs hd with ⟨-,heq⟩ | ⟨-,v,-,hv,heq⟩
      · simp [heq] at hcanon
      · rw [heq] at hcanon
        exact Option.some.inj hcanon ▸ hv
    · intro f
      rw [findSome_strvUniq,findSome_filterMap]

theorem mem_iterateList {ds : List CString} {fh : Hashmap κ CString CString} (hfh : Hashed hash fh)
    (hlist : fh.iterateList = (ds.flatMap (candidates fs suffix)).foldl keepFirst []) (e : CString × CString) :
    e ∈ fh.iterateList ↔ ds.findSome? (fun u => (candidates fs suffix u).find? (·.1 = e.1)) = some e := by
  have hfind := find_keepFirst [] (ds.flatMap (candidates fs suffix)) e.1
  rw [List.nil_append,← hlist] at hfind
  rw [← List.find?_flatMap,← hfind]
  constructor
  · intro he
    have hsome : (fh.iterateList.find? (·.1 = e.1)).isSome = true := List.find?_isSome.mpr ⟨e,he,by simp⟩
    obtain ⟨x,hx⟩ := Option.isSome_iff_exists.mp hsome
    have hname : x.1 = e.1 := by simpa using List.find?_some hx
    rw [hx,List.inj_on_of_nodup_map hfh.keys (List.mem_of_find?_eq_some hx) he hname]
  · exact List.mem_of_find?_eq_some

theorem sortFiles_sorted {files : List CString} (h : (files.map basename).Nodup) :
    (sortFiles files).Pairwise (basename · < basename ·) := by
  have : Std.Total fun s1 s2 => basename s1 ≤ basename s2 := ⟨fun s1 s2 => List.le_total _ _⟩
  have : IsTrans CString fun s1 s2 => basename s1 ≤ basename s2 := ⟨fun _ _ _ => List.le_trans⟩
  have hle := List.pairwise_insertionSort (fun s1 s2 => basename s1 ≤ basename s2) files
  have hperm : (sortFiles files).Perm files := List.perm_insertionSort _ files
  have hne : (sortFiles files).Pairwise (basename · ≠ basename ·) :=
    List.pairwise_map.mp ((hperm.map basename).nodup_iff.mpr h)
  exact (hle.and hne).imp fun hboth => Std.lt_of_le_of_ne hboth.1 hboth.2

theorem conf_files (key : κ) (hdirs : Existing fs dirs) :
    ∃ files, confFilesListStrv hash random fs key suffix none dirs = .ok files ∧
      files.Pairwise (basename · < basename ·) ∧
      ∀ f, f ∈ files ↔ ∃ pre d post u name, dirs = pre ++ d::post ∧ InDirectory fs suffix d u name ∧
        (∀ d' ∈ pre, ∀ u', ¬InDirectory fs suffix d' u' name) ∧ f = u ++ str "/" ++ name ∧ basename f = name := by
  obtain ⟨ds,hcanon,hread,hsome⟩ := canonicalized hdirs
  obtain ⟨fh,hall,hfh,hlist⟩ :=
    @filesAddAll_spec fs suffix κ hash random ds hread (hashmapNew key) (hashed_new key)
  have hmem := mem_iterateList hfh hlist
  have hbase : ∀ e ∈ fh.iterateList, basename e.2 = e.1 := by
    intro e he
    obtain ⟨pre,u,post,hds,hfind,-⟩ := List.findSome?_eq_some_iff.mp ((hmem e).mp he)
    obtain ⟨heq,entries,errno,hopen,de,hde,hname,-⟩ := mem_candidates.mp (find_candidates.mp hfind).2
    obtain ⟨entries',hopen',hnames⟩ := hread u (by simp [hds])
    obtain ⟨rfl,-⟩ := Prod.mk.inj (Except.ok.inj (hopen.symm.trans hopen'))
    rw [heq]
    exact basename_join (hname ▸ hnames de hde)
  refine ⟨sortFiles (hashmapGetStrv fh),by rw [confFilesListStrv,hcanon]; simp only [hall],?_,?_⟩
  · apply sortFiles_sorted
    have hkeys : (hashmapGetStrv fh).map basename = fh.iterateList.map (·.1) := by
      rw [hashmapGetStrv,List.map_map]
      exact List.map_congr_left hbase
    exact hkeys ▸ hfh.keys
  · intro f
    have hsorted : f ∈ sortFiles (hashmapGetStrv fh) ↔ ∃ e ∈ fh.iterateList, e.2 = f := by
      rw [sortFiles,(List.perm_insertionSort _ _).mem_iff,hashmapGetStrv,List.mem_map]
    rw [hsorted]
    constructor
    · rintro ⟨e,he,rfl⟩
      have hfirst := (hmem e).mp he
      rw [hsome] at hfirst
      obtain ⟨pre,d,post,hsplit,hd,hpre⟩ := List.findSome?_eq_some_iff.mp hfirst
      obtain ⟨u,hin,heq⟩ := (lookup_eq_some hdirs (by simp [hsplit])).mp hd
      refine ⟨pre,d,post,u,e.1,hsplit,hin,?_,congrArg Prod.snd heq,hbase e he⟩
      intro d' hd'
      exact (lookup_eq_none hdirs (by simp [hsplit,hd'])).mp (hpre d' hd')
    · rintro ⟨pre,d,post,u,name,hsplit,hin,hpre,rfl,hname⟩
      refine ⟨(name,u ++ str "/" ++ name),?_,rfl⟩
      rw [hmem,hsome,List.findSome?_eq_some_iff]
      refine ⟨pre,d,post,hsplit,(lookup_eq_some hdirs (by simp [hsplit])).mpr ⟨u,hin,rfl⟩,?_⟩
      intro d' hd'
      exact (lookup_eq_none hdirs (by simp [hsplit,hd'])).mpr (hpre d' hd')

end Result

section Rules

/-- A directory of the administrator that overrides one file of the system, and one that is hidden. -/
def rulesFileSystem : FileSystem where
  canonicalizeFileName := .ok
  opendir u :=
    if u = str "/etc" then .ok ([⟨.DT_REG,str "60-b.rules"⟩,⟨.DT_REG,str ".a.rules"⟩,⟨.DT_LNK,str "50-a.rules"⟩],0)
    else if u = str "/lib" then .ok ([⟨.DT_REG,str "60-b.rules"⟩,⟨.DT_REG,str "70-c.rules"⟩],0)
    else .error ENOENT

theorem existing_rules : Existing rulesFileSystem [str "/etc",str "/lib"] := by
  intro d hd _
  rcases List.mem_pair.mp hd with rfl | rfl
  · exact ⟨_,_,rfl,rfl,by decide +kernel⟩
  · exact ⟨_,_,rfl,rfl,by decide +kernel⟩

theorem conf_files_rules :
    Existing rulesFileSystem [str "/etc",str "/lib"] ∧
      ∃ files, confFilesListStrv (fun s key => s.length+key) (fun n => n) rulesFileSystem 7 (str ".rules") none
          [str "/etc",str "/lib"] = .ok files ∧ files.Pairwise (basename · < basename ·) ∧
        ∀ f, f ∈ files ↔ ∃ pre d post u name, [str "/etc",str "/lib"] = pre ++ d::post ∧
          InDirectory rulesFileSystem (str ".rules") d u name ∧
          (∀ d' ∈ pre, ∀ u', ¬InDirectory rulesFileSystem (str ".rules") d' u' name) ∧
          f = u ++ str "/" ++ name ∧ basename f = name :=
  ⟨existing_rules,conf_files _ existing_rules⟩

/-- A hidden file with the suffix is in no list. -/
theorem hidden_not_listed :
    Existing rulesFileSystem [str "/etc",str "/lib"] ∧
      confFilesListStrv (fun s key => s.length+key) (fun n => n) rulesFileSystem 7 (str ".rules") none
        [str "/etc",str "/lib"] = .ok [str "/etc/50-a.rules",str "/etc/60-b.rules",str "/lib/70-c.rules"] ∧
      rulesFileSystem.opendir (str "/etc") =
        .ok ([⟨.DT_REG,str "60-b.rules"⟩,⟨.DT_REG,str ".a.rules"⟩,⟨.DT_LNK,str "50-a.rules"⟩],0) ∧
      endswith (str ".a.rules") (str ".rules") ∧
      ¬∃ f ∈ [str "/etc/50-a.rules",str "/etc/60-b.rules",str "/lib/70-c.rules"], basename f = str ".a.rules" :=
  ⟨existing_rules,by decide +kernel,rfl,by decide,by decide +kernel⟩

end Rules

end ConfFiles
end Udev
