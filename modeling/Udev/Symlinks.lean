import Udev.Decimal
import Udev.DevPath
import Udev.UniqueList
import Mathlib.Data.List.Nodup

/-! The symlinks of the devices. A device claims a link by a file in a directory that
belongs to the link, and whenever a claim comes or goes the link is made again for the
claimant of the highest priority, which is read from the database. -/
namespace Udev
namespace Symlinks

open CString Text Decimal DevPath

/-- A device as it is found by its identifier: its node, and what the database says. -/
structure Record where
  devnode : Option CString
  priority : ℤ := 0
  links : List CString := []
  deriving DecidableEq, Repr

/-- The symlinks by the path they are at, with their content, the files of the claim
directories, and the devices by identifier. -/
structure Sys where
  links : CString → Option CString := fun _ => none
  claims : CString → List CString := fun _ => []
  records : CString → Option Record := fun _ => none

/-- What one event meets in the file system: the order in which a directory is read, and
the device nodes. -/
structure Env where
  readdir : CString → List CString → List CString
  perm : ∀ dir files, (readdir dir files).Perm files
  isNode : CString → Bool

def unsigned (n : UInt64) : CString := str (toString n.toNat)

def isBlock (d : Device) : Bool := d.subsystem = some (str "block")

/-- `udev_device_get_id_filename`. -/
def idFilename (d : Device) : Option CString :=
  d.subsystem.map fun subsystem =>
    if major d.devnum > 0 then
      (if isBlock d then chr 'b' else chr 'c')::(unsigned (major d.devnum) ++ str ":" ++ unsigned (minor d.devnum))
    else if d.ifindex > 0 then chr 'n'::str (toString d.ifindex)
    else chr '+'::(subsystem ++ str ":" ++ (d.devpath.reverse.takeWhile (· ≠ chr '/')).reverse)

def devnum (d : Device) : CString := (idFilename d).getD []

/-- "/dev/block/8:0" and "/dev/char/1:3". -/
def numberLink (d : Device) : CString :=
  str "/dev/" ++ (if isBlock d then str "block" else str "char") ++ str "/" ++
    unsigned (major d.devnum) ++ str ":" ++ unsigned (minor d.devnum)

def linkDir (slink : CString) : CString := strscpyl utilPathSize [str "/run/udev/links/",pathEncode (slink.drop 4)]

def linkTmp (slink devnum : CString) : CString := strscpyl (utilPathSize+32) [slink,str ".tmp-",devnum]

def names (d : Device) : List CString := d.devlinksList.map (·.name)

/-- `node_symlink` on the symlinks, with file operations that succeed. -/
def nodeSymlink (env : Env) (links : CString → Option CString) (devnum node slink : CString) :
    CString → Option CString :=
  match pathRelative node slink utilPathSize with
  | none => links
  | some target =>
    let place := lookup slink
    if env.isNode place then links
    else
      match links place with
      | none => Function.update links place (some target)
      | some old =>
        if old = target then links
        else Function.update (Function.update links (lookup (linkTmp slink devnum)) none) place (some target)

def better : Option (CString × ℤ) → CString × ℤ → Option (CString × ℤ)
  | none, c => some c
  | some b, c => if c.2 > b.2 then some c else some b

def candidate (s : Sys) (self name : CString) : Option (CString × ℤ) :=
  if charAt name 0 = chr '.' ∨ name = self then none
  else (s.records name).bind fun r => r.devnode.map fun node => (strscpy utilPathSize node,r.priority)

def linkFindPrioritized (s : Sys) (d : Device) (add : Bool) (files : List CString) : Option CString :=
  let own := if add then d.devnode.map fun node => (strscpy utilPathSize node,d.devlinkPriority) else none
  ((files.filterMap (candidate s (devnum d))).foldl better own).map (·.1)

def unregister (s : Sys) (d : Device) (slink : CString) : Sys :=
  { s with claims := Function.update s.claims (linkDir slink) ((s.claims (linkDir slink)).erase (devnum d)) }

def register (s : Sys) (d : Device) (slink : CString) : Sys :=
  { s with claims := Function.update s.claims (linkDir slink) ((s.claims (linkDir slink)).insert (devnum d)) }

def scan (env : Env) (s : Sys) (d : Device) (slink : CString) (add : Bool) : Option CString :=
  linkFindPrioritized s d add (env.readdir (linkDir slink) (s.claims (linkDir slink)))

def link (env : Env) (s : Sys) (d : Device) (slink : CString) (target : Option CString) : Sys :=
  { s with
    links := target.elim (Function.update s.links (lookup slink) none) fun node =>
      nodeSymlink env s.links (devnum d) node slink }

def linkUpdate (env : Env) (d : Device) (add : Bool) (s : Sys) (slink : CString) : Sys :=
  let s := if add then s else unregister s d slink
  let s := link env s d slink (scan env s d slink add)
  if add then register s d slink else s

def udevNodeUpdateOldLinks (env : Env) (s : Sys) (d : Device) (old : List CString) : Sys :=
  (old.filter (!(names d).contains ·)).foldl (linkUpdate env d false) s

def udevNodeAdd (env : Env) (s : Sys) (d : Device) : Sys :=
  (names d).foldl (linkUpdate env d true)
    { s with links := nodeSymlink env s.links (devnum d) (d.devnode.getD []) (numberLink d) }

def udevNodeRemove (env : Env) (s : Sys) (d : Device) : Sys :=
  let s := (names d).foldl (linkUpdate env d false) s
  { s with links := Function.update s.links (lookup (numberLink d)) none }

/-- An event with the device as its links are updated: after the rules. -/
inductive Event
  | update (d : Device) | remove (d : Device)
  deriving DecidableEq, Repr

/-- The part of `udev_event_execute_rules` that is about the links and the database. -/
def handle (s : Sys) (env : Env) : Event → Sys
  | .update d =>
    let old := (s.records (devnum d)).elim [] (·.links)
    let s := if major d.devnum > 0 then udevNodeAdd env (udevNodeUpdateOldLinks env s d old) d else s
    { s with records := Function.update s.records (devnum d) (some ⟨d.devnode,d.devlinkPriority,names d⟩) }
  | .remove d =>
    let s := { s with records := Function.update s.records (devnum d) none }
    if major d.devnum ≠ 0 then udevNodeRemove env s d else s

def run (es : List (Env × Event)) : Sys := es.foldl (fun s e => handle s e.1 e.2) {}

/-- A device that is there claims the link. -/
def Claims (s : Sys) (slink id : CString) : Prop := ∃ r, s.records id = some r ∧ slink ∈ r.links

/-- The names that rules give: below /dev, and short enough for a claim directory. -/
def Fits (slink : CString) : Prop :=
  startswith slink (str "/dev/") = true ∧ (str "/run/udev/links/" ++ pathEncode (slink.drop 4)).length < utilPathSize

instance (slink : CString) : Decidable (Fits slink) := inferInstanceAs (Decidable (_ ∧ _))

/-- A link name that udev does not use for its own links. -/
structure LinkName (slink : CString) : Prop where
  fits : Fits slink
  normal : Normal slink
  number : ∀ d, slink ≠ numberLink d
  tmp : ¬str ".tmp-" <:+: slink

def Reaches (node slink : CString) : Prop :=
  Normal node ∧ node.length < utilPathSize ∧ (pathRelative node slink utilPathSize).isSome

/-- A name that leads to the path of the link, as "/dev//root" to "/dev/root", is the name of the link. -/
def NameOk (slink name : CString) : Prop := Fits name ∧ (lookup name = slink → name = slink)

instance (slink name : CString) : Decidable (NameOk slink name) := inferInstanceAs (Decidable (_ ∧ _))

structure DeviceOk (slink : CString) (d : Device) : Prop where
  subsystem : d.subsystem.isSome
  unique : d.devlinksList.Sorted
  nameOk : ∀ name ∈ names d, NameOk slink name
  node : names d ≠ [] → major d.devnum > 0

def EventOk (slink : CString) (s : Sys) : Event → Prop
  | .update d => DeviceOk slink d ∧ (slink ∈ names d → ∃ node, d.devnode = some node ∧ Reaches node slink)
  | .remove d => DeviceOk slink d ∧ ∀ r, s.records (devnum d) = some r → ∀ name ∈ r.links, name ∈ names d

theorem foldl_better (b : CString × ℤ) (cs : List (CString × ℤ)) :
    ∃ b', cs.foldl better (some b) = some b' ∧ (b' = b ∨ b' ∈ cs ∧ b.2 < b'.2) ∧ ∀ c ∈ cs, c.2 ≤ b'.2 := by
  induction cs generalizing b with
  | nil => exact ⟨b,rfl,Or.inl rfl,by simp⟩
  | cons c cs ih =>
    by_cases hgt : c.2 > b.2
    · obtain ⟨b',hfold,hb',hmax⟩ := ih c
      have hle : c.2 ≤ b'.2 := by
        rcases hb' with rfl | ⟨-,hlt⟩
        · exact Int.le_refl _
        · exact Int.le_of_lt hlt
      refine ⟨b',by simpa [better,hgt] using hfold,Or.inr ⟨?_,Int.lt_of_lt_of_le hgt hle⟩,?_⟩
      · rcases hb' with rfl | ⟨hmem,-⟩
        · exact List.mem_cons_self
        · exact List.mem_cons_of_mem _ hmem
      · exact List.forall_mem_cons.mpr ⟨hle,hmax⟩
    · obtain ⟨b',hfold,hb',hmax⟩ := ih b
      refine ⟨b',by simpa [better,hgt] using hfold,?_,?_⟩
      · rcases hb' with rfl | ⟨hmem,hlt⟩
        · exact Or.inl rfl
        · exact Or.inr ⟨List.mem_cons_of_mem _ hmem,hlt⟩
      · have hle : c.2 ≤ b'.2 := by
          rcases hb' with rfl | ⟨-,hlt⟩ <;> omega
        exact List.forall_mem_cons.mpr ⟨hle,hmax⟩

/-- Among other claimants the highest priority wins; without one there is no target. -/
theorem foldl_better_none (cs : List (CString × ℤ)) :
    cs = [] ∧ cs.foldl better none = none ∨
      ∃ b, cs.foldl better none = some b ∧ b ∈ cs ∧ ∀ c ∈ cs, c.2 ≤ b.2 := by
  cases cs with
  | nil => exact Or.inl ⟨rfl,rfl⟩
  | cons c cs =>
    obtain ⟨b,hfold,hb,hmax⟩ := foldl_better c cs
    refine Or.inr ⟨b,hfold,?_,?_⟩
    · rcases hb with rfl | ⟨hmem,-⟩
      · exact List.mem_cons_self
      · exact List.mem_cons_of_mem _ hmem
    · have hle : c.2 ≤ b.2 := by
        rcases hb with rfl | ⟨-,hlt⟩
        · exact Int.le_refl _
        · exact Int.le_of_lt hlt
      exact List.forall_mem_cons.mpr ⟨hle,hmax⟩

theorem linkDir_inj {a b : CString} (ha : Fits a) (hb : Fits b) (h : linkDir a = linkDir b) : a = b := by
  have hparts : ∀ s : CString, [str "/run/udev/links/",pathEncode (s.drop 4)].flatten =
      str "/run/udev/links/" ++ pathEncode (s.drop 4) := fun s => by simp
  rw [linkDir,linkDir,strscpyl_fits (by rw [hparts]; exact ha.2),strscpyl_fits (by rw [hparts]; exact hb.2),
    hparts,hparts] at h
  have hdrop := pathEncode_injective (List.append_cancel_left h)
  obtain ⟨x,rfl⟩ := List.isPrefixOf_iff_prefix.mp ha.1
  obtain ⟨y,rfl⟩ := List.isPrefixOf_iff_prefix.mp hb.1
  exact congrArg (str "/dev/" ++ ·) (List.cons.inj hdrop).2

def view (slink : CString) (s : Sys) : Option CString × List CString := (s.links slink,s.claims (linkDir slink))

theorem unsigned_eq (x : UInt64) : unsigned x = printNat x.toNat := by
  have hlt := x.toNat_lt
  exact str_toString (by omega)

theorem notMem_unsigned {c : UInt8} (hc : ¬IsDigit c) (x : UInt64) : c ∉ unsigned x := by
  rw [unsigned_eq]
  exact notMem_printNat hc _

theorem unsigned_length (x : UInt64) : (unsigned x).length ≤ 20 := by
  rw [unsigned_eq]
  exact (printNat_length _).2

theorem numbers_no_slash (x y : UInt64) : chr '/' ∉ unsigned x ++ str ":" ++ unsigned y := by
  have hcolon : chr '/' ∉ str ":" := by decide
  simp [notMem_unsigned not_isDigit_slash,hcolon]

theorem devnum_no_slash {d : Device} (hmajor : major d.devnum > 0) : chr '/' ∉ devnum d := by
  unfold devnum idFilename
  cases d.subsystem with
  | none => exact List.not_mem_nil
  | some subsystem =>
    have htype : chr '/' ≠ if isBlock d then chr 'b' else chr 'c' := by
      split_ifs <;> decide
    simp only [Option.map_some,Option.getD_some,if_pos hmajor,List.mem_cons,not_or]
    exact ⟨htype,numbers_no_slash _ _⟩

theorem normal_numberLink (d : Device) : Normal (numberLink d) := by
  let type := if isBlock d then str "block" else str "char"
  let numbers := unsigned (major d.devnum) ++ str ":" ++ unsigned (minor d.devnum)
  have hcolon : chr ':' ∈ numbers := by simp [numbers,str,chr]
  have hnumbers : Component numbers := by
    refine ⟨List.ne_nil_of_mem hcolon,numbers_no_slash _ _,?_,?_⟩ <;>
      exact fun h => absurd (h ▸ hcolon) (by decide)
  have htype : Component type := by
    simp only [type]
    split_ifs <;> decide
  refine ⟨[str "dev",type,numbers],List.cons_ne_nil _ _,?_,?_⟩
  · simp only [List.forall_mem_cons]
    exact ⟨by decide,htype,hnumbers,by simp⟩
  · simp [numberLink,absPath,type,numbers,str,chr]

theorem numberLink_length (d : Device) : (numberLink d).length < utilPathSize := by
  have hmaj := unsigned_length (major d.devnum)
  have hmin := unsigned_length (minor d.devnum)
  have htype : (if isBlock d then str "block" else str "char").length ≤ 5 := by
    split_ifs <;> decide
  have hdev : (str "/dev/").length = 5 := rfl
  have hslash : (str "/").length = 1 := rfl
  have hcolon : (str ":").length = 1 := rfl
  simp only [numberLink,List.length_append,utilPathSize]
  omega

theorem Fits.length_lt {name : CString} (h : Fits name) : name.length < utilPathSize := by
  obtain ⟨x,rfl⟩ := List.isPrefixOf_iff_prefix.mp h.1
  have hlen := h.2
  have hencode : ∀ s : CString, s.length ≤ (pathEncode s).length := by
    intro s
    induction s with
    | nil => exact Nat.zero_le _
    | cons c s ih =>
      simp only [pathEncode]
      split_ifs <;> simp [charEncode] <;> omega
  have hx := hencode (chr '/'::x)
  have hdrop : (str "/dev/" ++ x).drop 4 = chr '/'::x := rfl
  rw [hdrop,List.length_append] at hlen
  have hrun : (str "/run/udev/links/").length = 16 := rfl
  have hdev : (str "/dev/").length = 5 := rfl
  rw [List.length_cons] at hx
  rw [List.length_append]
  omega

theorem tmp_infix {name id : CString} (hname : name.length < utilPathSize) (hid : chr '/' ∉ id) :
    str ".tmp-" <:+: lookup (linkTmp name id) := by
  let mark := (str ".tmp-" ++ id).take (utilPathSize+31-name.length)
  have hpath : utilPathSize = 1024 := rfl
  have hdot : (str ".tmp-").length = 5 := rfl
  have htmp : linkTmp name id = name ++ mark := by
    rw [linkTmp,strscpyl_take]
    simp only [List.flatten_cons,List.flatten_nil,List.append_nil]
    rw [List.take_append,List.take_of_length_le (by omega)]
    rfl
  have hprefix : str ".tmp-" <+: mark := by
    refine List.prefix_take_iff.mpr ⟨List.prefix_append _ _,?_⟩
    omega
  have hslash : chr '/' ∉ mark := by
    intro h
    rcases List.mem_append.mp (List.mem_of_mem_take h) with h | h
    · exact absurd h (by decide)
    · exact hid h
  have hlen := hprefix.length_le
  rw [htmp]
  exact hprefix.isInfix.trans (lookup_append name hslash (by omega)).isInfix

section View

variable {slink : CString} (hl : LinkName slink) (env : Env)
include hl

theorem LinkName.ne_linkTmp {name id : CString} (hname : name.length < utilPathSize) (hid : chr '/' ∉ id) :
    slink ≠ lookup (linkTmp name id) := by
  intro h
  exact hl.tmp (h ▸ tmp_infix hname hid)

theorem nodeSymlink_ne (links : CString → Option CString) {id : CString} (node : CString) {name : CString}
    (hname : name.length < utilPathSize) (hid : chr '/' ∉ id) (hne : slink ≠ lookup name) :
    nodeSymlink env links id node name slink = links slink := by
  unfold nodeSymlink
  cases pathRelative node name utilPathSize with
  | none => rfl
  | some target =>
    by_cases hnode : env.isNode (lookup name)
    · simp only [hnode,if_true]
    · cases hold : links (lookup name) with
      | none => simp [hnode,hold,hne]
      | some old =>
        by_cases heq : old = target
        · simp [hnode,hold,heq]
        · simp [hnode,hold,heq,Function.update,hne,hl.ne_linkTmp hname hid]

theorem links_numberLink (links : CString → Option CString) {d : Device} (hmajor : major d.devnum > 0) (node : CString) :
    nodeSymlink env links (devnum d) node (numberLink d) slink = links slink := by
  refine nodeSymlink_ne hl env links node (numberLink_length d) (devnum_no_slash hmajor) ?_
  rw [lookup_normal (normal_numberLink d)]
  exact hl.number d

theorem view_linkUpdate_ne {d : Device} (hmajor : major d.devnum > 0) (add : Bool) (s : Sys) {name : CString}
    (hok : NameOk slink name) (hne : slink ≠ name) : view slink (linkUpdate env d add s name) = view slink s := by
  have hdir : linkDir slink ≠ linkDir name := fun h => hne (linkDir_inj hl.fits hok.1 h)
  have hplace : slink ≠ lookup name := fun h => hne (hok.2 h.symm).symm
  have hlink : ∀ (s : Sys) (target : Option CString), view slink (link env s d name target) = view slink s := by
    rintro s (- | target)
    · simp [view,link,Function.update,hplace]
    · simp [view,link,nodeSymlink_ne hl env s.links target hok.1.length_lt (devnum_no_slash hmajor) hplace]
  cases add with
  | false =>
    refine (hlink (unregister s d name) _).trans ?_
    simp [view,unregister,Function.update,hdir]
  | true =>
    have hreg : ∀ s : Sys, view slink (register s d name) = view slink s := by
      intro s
      simp [view,register,Function.update,hdir]
    exact (hreg _).trans (hlink s _)

end View

@[simp] theorem records_linkUpdate (env : Env) (d : Device) (add : Bool) (s : Sys) (name : CString) :
    (linkUpdate env d add s name).records = s.records := by
  cases add <;> rfl

theorem records_foldl (env : Env) (d : Device) (add : Bool) (l : List CString) (s : Sys) :
    (l.foldl (linkUpdate env d add) s).records = s.records := by
  induction l generalizing s with
  | nil => rfl
  | cons name l ih => rw [List.foldl_cons,ih,records_linkUpdate]

section Loop

variable {slink : CString} (hl : LinkName slink) (env : Env) {d : Device} (hmajor : major d.devnum > 0) (add : Bool)
  {l : List CString} (hok : ∀ name ∈ l, NameOk slink name) (s : Sys)
include hl hmajor hok

theorem view_foldl_not_mem (h : slink ∉ l) :
    view slink (l.foldl (linkUpdate env d add) s) = view slink s := by
  induction l generalizing s with
  | nil => rfl
  | cons name l ih =>
    rw [List.mem_cons,not_or] at h
    rw [List.foldl_cons,ih (fun x hx => hok x (List.mem_cons_of_mem _ hx)) _ h.2]
    exact view_linkUpdate_ne hl env hmajor add s (hok name List.mem_cons_self) h.1

theorem view_foldl_mem (hnodup : l.Nodup) (h : slink ∈ l) {P : Option CString × List CString → Prop}
    (hself : ∀ t, view slink t = view slink s → t.records = s.records →
      P (view slink (linkUpdate env d add t slink))) :
    P (view slink (l.foldl (linkUpdate env d add) s)) := by
  induction l generalizing s with
  | nil => simp at h
  | cons name l ih =>
    have hrest : ∀ x ∈ l, NameOk slink x := fun x hx => hok x (List.mem_cons_of_mem _ hx)
    rw [List.foldl_cons]
    by_cases hname : slink = name
    · subst hname
      rw [view_foldl_not_mem hl env hmajor add hrest _ (List.nodup_cons.mp hnodup).1]
      exact hself s rfl rfl
    · have hmem : slink ∈ l := (List.mem_cons.mp h).resolve_left hname
      refine ih hrest _ (List.nodup_cons.mp hnodup).2 hmem ?_
      intro t ht hrec
      refine hself t ?_ ?_
      · rw [ht]
        exact view_linkUpdate_ne hl env hmajor add s (hok name List.mem_cons_self) hname
      · rw [hrec,records_linkUpdate]

end Loop

def Owner (slink : CString) (records : CString → Option Record) : Option CString → Prop
  | none => ∀ id r, records id = some r → slink ∉ r.links
  | some content => ∃ id r node, records id = some r ∧ slink ∈ r.links ∧ r.devnode = some node ∧
      pathRelative node slink utilPathSize = some content ∧
      ∀ id' r', records id' = some r' → slink ∈ r'.links → r'.priority ≤ r.priority

/-- The claim files are those of the claimants, and the link leads to the owner. -/
structure Held (slink : CString) (records : CString → Option Record) (v : Option CString × List CString) : Prop where
  nodup : v.2.Nodup
  claim : ∀ id, id ∈ v.2 ↔ ∃ r, records id = some r ∧ slink ∈ r.links
  owner : Owner slink records v.1

structure Inv (slink : CString) (s : Sys) : Prop where
  held : Held slink s.records (view slink s)
  record : ∀ id r, s.records id = some r → slink ∈ r.links →
    (charAt id 0 = chr 'b' ∨ charAt id 0 = chr 'c') ∧ ∃ node, r.devnode = some node ∧ Reaches node slink
  stored : ∀ id r, s.records id = some r → r.links.Nodup ∧ ∀ name ∈ r.links, NameOk slink name

theorem nodeSymlink_self {env : Env} {slink node content : CString} (hnormal : Normal slink)
    (links : CString → Option CString) (id : CString) (hnode : env.isNode slink = false)
    (h : pathRelative node slink utilPathSize = some content) :
    nodeSymlink env links id node slink slink = some content := by
  simp only [nodeSymlink,h,lookup_normal hnormal,hnode]
  cases hold : links slink with
  | none => simp
  | some old =>
    by_cases heq : old = content
    · simp [heq,hold]
    · simp [heq]

section Update

variable {slink : CString} {env : Env} {d : Device} {s t : Sys} (hinv : Inv slink s)
  (hrec : ∀ id, id ≠ devnum d → t.records id = s.records id)
include hinv hrec

/-- The candidates of a scan are the nodes and priorities of the other claimants. -/
theorem mem_candidates {files : List CString} (hfiles : ∀ id, id ≠ devnum d → (id ∈ files ↔ Claims s slink id))
    (c : CString × ℤ) :
    c ∈ files.filterMap (candidate t (devnum d)) ↔
      ∃ id r node, id ≠ devnum d ∧ s.records id = some r ∧ slink ∈ r.links ∧ r.devnode = some node ∧
        c = (node,r.priority) := by
  rw [List.mem_filterMap]
  constructor
  · rintro ⟨id,hid,hc⟩
    unfold candidate at hc
    split_ifs at hc with hskip
    rw [not_or] at hskip
    obtain ⟨r,hr,hmem⟩ := (hfiles id hskip.2).mp hid
    rw [hrec id hskip.2,hr,Option.bind_some] at hc
    obtain ⟨-,node,hnode,-,hlen,-⟩ := hinv.record id r hr hmem
    refine ⟨id,r,node,hskip.2,hr,hmem,hnode,?_⟩
    rw [hnode,Option.map_some,strscpy_fits hlen] at hc
    exact (Option.some.inj hc).symm
  · rintro ⟨id,r,node,hid,hr,hmem,hnode,rfl⟩
    obtain ⟨htype,node',hnode',-,hlen,-⟩ := hinv.record id r hr hmem
    have hdot : charAt id 0 ≠ chr '.' := by
      rcases htype with h | h <;> rw [h] <;> decide
    obtain rfl : node' = node := Option.some.inj (hnode'.symm.trans hnode)
    refine ⟨id,(hfiles id hid).mpr ⟨r,hr,hmem⟩,?_⟩
    rw [candidate,if_neg (not_or.mpr ⟨hdot,hid⟩),hrec id hid,hr,Option.bind_some,hnode,Option.map_some,
      strscpy_fits hlen]

variable (env) in
/-- The scan of a device that claims the link: the device itself, unless another
claimant has a higher priority. -/
theorem scan_add (hview : view slink t = view slink s) {node : CString} (hnode : d.devnode = some node)
    (hlen : node.length < utilPathSize) :
    scan env t d slink true = some node ∧
        (∀ id r, id ≠ devnum d → s.records id = some r → slink ∈ r.links → r.priority ≤ d.devlinkPriority) ∨
      ∃ id r target, scan env t d slink true = some target ∧ id ≠ devnum d ∧ s.records id = some r ∧
        slink ∈ r.links ∧ r.devnode = some target ∧ d.devlinkPriority < r.priority ∧
        ∀ id' r', id' ≠ devnum d → s.records id' = some r' → slink ∈ r'.links → r'.priority ≤ r.priority := by
  let files := env.readdir (linkDir slink) (t.claims (linkDir slink))
  have hfiles : ∀ id, id ≠ devnum d → (id ∈ files ↔ Claims s slink id) := by
    intro id _
    have hclaims : t.claims (linkDir slink) = s.claims (linkDir slink) := congrArg Prod.snd hview
    rw [(env.perm _ _).mem_iff,hclaims]
    exact hinv.held.claim id
  have hmem := mem_candidates hinv hrec hfiles
  have hown : scan env t d slink true = ((files.filterMap (candidate t (devnum d))).foldl better
      (some (node,d.devlinkPriority))).map (·.1) := by
    have hcopy : strscpy utilPathSize node = node := strscpy_fits hlen
    simp only [scan,linkFindPrioritized,hnode,Option.map_some,hcopy,if_true]
    rfl
  obtain ⟨b,hfold,hb,hmax⟩ := foldl_better (node,d.devlinkPriority) (files.filterMap (candidate t (devnum d)))
  have hothers : ∀ id' r', id' ≠ devnum d → s.records id' = some r' → slink ∈ r'.links → r'.priority ≤ b.2 := by
    intro id' r' hid' hr' hmem'
    obtain ⟨-,node',hnode',-⟩ := hinv.record id' r' hr' hmem'
    exact hmax (node',r'.priority) ((hmem _).mpr ⟨id',r',node',hid',hr',hmem',hnode',rfl⟩)
  rw [hown,hfold]
  rcases hb with rfl | ⟨hbmem,hlt⟩
  · exact Or.inl ⟨rfl,hothers⟩
  · obtain ⟨id,r,target,hid,hr,hlink,htarget,rfl⟩ := (hmem b).mp hbmem
    exact Or.inr ⟨id,r,target,rfl,hid,hr,hlink,htarget,hlt,hothers⟩

variable (env) in
/-- The scan of a device that gives the link up: the claimant of the highest priority
among the others. -/
theorem scan_remove (hview : view slink t = view slink s) :
    scan env (unregister t d slink) d slink false = none ∧
        (∀ id r, id ≠ devnum d → s.records id = some r → slink ∉ r.links) ∨
      ∃ id r target, scan env (unregister t d slink) d slink false = some target ∧ id ≠ devnum d ∧
        s.records id = some r ∧ slink ∈ r.links ∧ r.devnode = some target ∧
        ∀ id' r', id' ≠ devnum d → s.records id' = some r' → slink ∈ r'.links → r'.priority ≤ r.priority := by
  let u := unregister t d slink
  let files := env.readdir (linkDir slink) (u.claims (linkDir slink))
  have hfiles : ∀ id, id ≠ devnum d → (id ∈ files ↔ Claims s slink id) := by
    intro id hid
    have hclaims : u.claims (linkDir slink) = (s.claims (linkDir slink)).erase (devnum d) := by
      have : t.claims (linkDir slink) = s.claims (linkDir slink) := congrArg Prod.snd hview
      simp [u,unregister,this]
    rw [(env.perm _ _).mem_iff,hclaims,List.mem_erase_of_ne hid]
    exact hinv.held.claim id
  have hmem := mem_candidates (t := u) hinv hrec hfiles
  have hscan : scan env u d slink false =
      ((files.filterMap (candidate u (devnum d))).foldl better none).map (·.1) := rfl
  rcases foldl_better_none (files.filterMap (candidate u (devnum d))) with ⟨hnil,hfold⟩ | ⟨b,hfold,hbmem,hmax⟩
  · refine Or.inl ⟨by rw [hscan,hfold]; rfl,?_⟩
    intro id r hid hr hlink
    obtain ⟨-,node,hnode,-⟩ := hinv.record id r hr hlink
    have := (hmem (node,r.priority)).mpr ⟨id,r,node,hid,hr,hlink,hnode,rfl⟩
    rw [hnil] at this
    exact List.not_mem_nil this
  · obtain ⟨id,r,target,hid,hr,hlink,htarget,rfl⟩ := (hmem b).mp hbmem
    refine Or.inr ⟨id,r,target,by rw [hscan,hfold]; rfl,hid,hr,hlink,htarget,?_⟩
    intro id' r' hid' hr' hmem'
    obtain ⟨-,node',hnode',-⟩ := hinv.record id' r' hr' hmem'
    exact hmax (node',r'.priority) ((hmem _).mpr ⟨id',r',node',hid',hr',hmem',hnode',rfl⟩)

theorem held_add (hnormal : Normal slink) (hview : view slink t = view slink s) (henv : env.isNode slink = false) {node : CString}
    (hnode : d.devnode = some node) (hreach : Reaches node slink) {r₀ : Record} (hr₀ : r₀.devnode = some node)
    (hprio : r₀.priority = d.devlinkPriority) (hlinks : slink ∈ r₀.links) :
    Held slink (Function.update s.records (devnum d) (some r₀)) (view slink (linkUpdate env d true t slink)) ∧
      ((∀ id r, id ≠ devnum d → s.records id = some r → slink ∈ r.links → r.priority ≤ d.devlinkPriority) →
        (view slink (linkUpdate env d true t slink)).1 = pathRelative node slink utilPathSize) := by
  have hself : Function.update s.records (devnum d) (some r₀) (devnum d) = some r₀ := Function.update_self ..
  have hother : ∀ id, id ≠ devnum d →
      Function.update s.records (devnum d) (some r₀) id = s.records id := fun id h => Function.update_of_ne h ..
  have hclaims : (view slink (linkUpdate env d true t slink)).2 =
      (s.claims (linkDir slink)).insert (devnum d) := by
    have : t.claims (linkDir slink) = s.claims (linkDir slink) := congrArg Prod.snd hview
    simp [view,linkUpdate,register,link,this]
  have hcontent : ∀ {target content : CString}, scan env t d slink true = some target →
      pathRelative target slink utilPathSize = some content →
      (view slink (linkUpdate env d true t slink)).1 = some content := by
    intro target content hscan hrel
    have : (view slink (linkUpdate env d true t slink)).1 =
        (link env t d slink (scan env t d slink true)).links slink := rfl
    rw [this,hscan]
    exact nodeSymlink_self hnormal t.links (devnum d) henv hrel
  have hnodup : (view slink (linkUpdate env d true t slink)).2.Nodup := by
    rw [hclaims]
    exact List.Nodup.insert hinv.held.nodup
  have hclaim : ∀ id, id ∈ (view slink (linkUpdate env d true t slink)).2 ↔
      ∃ r, Function.update s.records (devnum d) (some r₀) id = some r ∧ slink ∈ r.links := by
    intro id
    rw [hclaims,List.mem_insert_iff]
    by_cases hid : id = devnum d
    · subst hid
      exact ⟨fun _ => ⟨r₀,hself,hlinks⟩,fun _ => Or.inl rfl⟩
    · rw [hother id hid,or_iff_right hid]
      exact hinv.held.claim id
  rcases scan_add env hinv hrec hview hnode hreach.2.1 with
    ⟨hscan,hmax⟩ | ⟨id,r,target,hscan,hid,hr,hmem,htarget,hlt,hmax⟩
  · obtain ⟨content,hrel⟩ := Option.isSome_iff_exists.mp hreach.2.2
    have hlink := hcontent hscan hrel
    refine ⟨⟨hnodup,hclaim,?_⟩,fun _ => by rw [hlink,hrel]⟩
    rw [hlink]
    refine ⟨devnum d,r₀,node,hself,hlinks,hr₀,hrel,?_⟩
    intro id' r' hr' hmem'
    by_cases hid' : id' = devnum d
    · subst hid'
      obtain rfl := Option.some.inj (hself.symm.trans hr')
      exact Int.le_refl _
    · rw [hother id' hid'] at hr'
      rw [hprio]
      exact hmax id' r' hid' hr' hmem'
  · obtain ⟨-,node',hnode',hreach'⟩ := hinv.record id r hr hmem
    obtain rfl : node' = target := Option.some.inj (hnode'.symm.trans htarget)
    obtain ⟨content,hrel⟩ := Option.isSome_iff_exists.mp hreach'.2.2
    have hlink := hcontent hscan hrel
    refine ⟨⟨hnodup,hclaim,?_⟩,fun hle => absurd (hle id r hid hr hmem) (Int.not_le.mpr hlt)⟩
    rw [hlink]
    refine ⟨id,r,node',by rw [hother id hid,hr],hmem,htarget,hrel,?_⟩
    intro id' r' hr' hmem'
    by_cases hid' : id' = devnum d
    · subst hid'
      rw [← Option.some.inj (hself.symm.trans hr'),hprio]
      exact Int.le_of_lt hlt
    · rw [hother id' hid'] at hr'
      exact hmax id' r' hid' hr' hmem'

variable {records : CString → Option Record} (hother : ∀ id, id ≠ devnum d → records id = s.records id)
  (hgone : ∀ r, records (devnum d) = some r → slink ∉ r.links)
include hother hgone

theorem held_remove (hnormal : Normal slink) (hview : view slink t = view slink s) (henv : env.isNode slink = false) :
    Held slink records (view slink (linkUpdate env d false t slink)) := by
  have hclaims : (view slink (linkUpdate env d false t slink)).2 =
      (s.claims (linkDir slink)).erase (devnum d) := by
    have : t.claims (linkDir slink) = s.claims (linkDir slink) := congrArg Prod.snd hview
    simp [view,linkUpdate,unregister,link,this]
  have hlink : (view slink (linkUpdate env d false t slink)).1 =
      (link env (unregister t d slink) d slink (scan env (unregister t d slink) d slink false)).links slink := rfl
  have hnodup : (s.claims (linkDir slink)).Nodup := hinv.held.nodup
  refine ⟨?_,?_,?_⟩
  · rw [hclaims]
    exact hnodup.erase _
  · intro id
    rw [hclaims,hnodup.mem_erase_iff]
    by_cases hid : id = devnum d
    · subst hid
      refine ⟨fun h => absurd rfl h.1,?_⟩
      rintro ⟨r,hr,hmem⟩
      exact absurd hmem (hgone r hr)
    · rw [hother id hid]
      exact ⟨fun h => (hinv.held.claim id).mp h.2,fun h => ⟨hid,(hinv.held.claim id).mpr h⟩⟩
  · rw [hlink]
    rcases scan_remove env hinv hrec hview with ⟨hscan,hnone⟩ | ⟨id,r,target,hscan,hid,hr,hmem,htarget,hmax⟩
    · rw [hscan]
      have hunlinked : (link env (unregister t d slink) d slink none).links slink = none := by
        simp [link,lookup_normal hnormal]
      rw [hunlinked]
      intro id r hr
      by_cases hid : id = devnum d
      · subst hid
        exact hgone r hr
      · exact hnone id r hid (by rw [← hother id hid,hr])
    · obtain ⟨-,node',hnode',hreach'⟩ := hinv.record id r hr hmem
      obtain rfl : node' = target := Option.some.inj (hnode'.symm.trans htarget)
      obtain ⟨content,hrel⟩ := Option.isSome_iff_exists.mp hreach'.2.2
      rw [hscan]
      have hlinked : (link env (unregister t d slink) d slink (some node')).links slink = some content :=
        nodeSymlink_self hnormal _ (devnum d) henv hrel
      rw [hlinked]
      refine ⟨id,r,node',by rw [hother id hid,hr],hmem,htarget,hrel,?_⟩
      intro id' r' hr' hmem'
      by_cases hid' : id' = devnum d
      · subst hid'
        exact absurd hmem' (hgone r' hr')
      · rw [hother id' hid'] at hr'
        exact hmax id' r' hid' hr' hmem'

omit hrec in
theorem held_other (hold : ∀ r, s.records (devnum d) = some r → slink ∉ r.links) :
    Held slink records (view slink s) := by
  have hiff : ∀ id r, records id = some r ∧ slink ∈ r.links ↔ s.records id = some r ∧ slink ∈ r.links := by
    intro id r
    by_cases hid : id = devnum d
    · subst hid
      exact ⟨fun h => absurd h.2 (hgone r h.1),fun h => absurd h.2 (hold r h.1)⟩
    · rw [hother id hid]
  refine ⟨hinv.held.nodup,?_,?_⟩
  · intro id
    rw [hinv.held.claim id]
    exact exists_congr fun r => (hiff id r).symm
  · have howner := hinv.held.owner
    cases hcontent : (view slink s).1 with
    | none =>
      rw [hcontent] at howner
      intro id r hr hmem
      obtain ⟨hr,hmem⟩ := (hiff id r).mp ⟨hr,hmem⟩
      exact howner id r hr hmem
    | some content =>
      rw [hcontent] at howner
      obtain ⟨id,r,node,hr,hmem,hnode,hrel,hmax⟩ := howner
      obtain ⟨hr,hmem⟩ := (hiff id r).mpr ⟨hr,hmem⟩
      refine ⟨id,r,node,hr,hmem,hnode,hrel,?_⟩
      intro id' r' hr' hmem'
      obtain ⟨hr',hmem'⟩ := (hiff id' r').mp ⟨hr',hmem'⟩
      exact hmax id' r' hr' hmem'

end Update

theorem devnum_head {d : Device} (hsubsystem : d.subsystem.isSome) :
    if major d.devnum > 0 then charAt (devnum d) 0 = chr 'b' ∨ charAt (devnum d) 0 = chr 'c'
    else charAt (devnum d) 0 ≠ chr 'b' ∧ charAt (devnum d) 0 ≠ chr 'c' := by
  have hhead : ∀ (c : UInt8) (s : CString), charAt (c::s) 0 = c := fun _ _ => rfl
  obtain ⟨subsystem,hs⟩ := Option.isSome_iff_exists.mp hsubsystem
  simp only [devnum,idFilename,hs,Option.map_some,Option.getD_some]
  by_cases hmajor : major d.devnum > 0
  · simp only [hmajor,if_true,hhead]
    by_cases hb : isBlock d <;> simp [hb]
  · simp only [hmajor,if_false]
    by_cases hif : d.ifindex > 0
    · simp only [hif,if_true,hhead]
      decide
    · simp only [hif,if_false,hhead]
      decide

section Step

variable {slink : CString} (hl : LinkName slink) {env : Env} (henv : env.isNode slink = false) {s : Sys}
  (hinv : Inv slink s) {d : Device} (hd : DeviceOk slink d)
include hinv hd

theorem not_claims_of_major (hmajor : ¬major d.devnum > 0) :
    ∀ r, s.records (devnum d) = some r → slink ∉ r.links := by
  intro r hr hmem
  have hhead := devnum_head hd.subsystem
  rw [if_neg hmajor] at hhead
  rcases (hinv.record _ r hr hmem).1 with h | h
  · exact hhead.1 h
  · exact hhead.2 h

include hl henv

omit hd in
theorem held_old_links (hmajor : major d.devnum > 0) (hnot : slink ∉ names d) {records : CString → Option Record}
    (hother : ∀ id, id ≠ devnum d → records id = s.records id)
    (hgone : ∀ r, records (devnum d) = some r → slink ∉ r.links) :
    Held slink records (view slink
      (udevNodeUpdateOldLinks env s d ((s.records (devnum d)).elim [] (·.links)))) := by
  cases hr : s.records (devnum d) with
  | none => exact held_other hinv hother hgone (by simp [hr])
  | some r =>
    obtain ⟨hnodup,hok⟩ := hinv.stored _ r hr
    have hleft : ∀ name ∈ r.links.filter (!(names d).contains ·), NameOk slink name :=
      fun name h => hok name (List.mem_of_mem_filter h)
    by_cases hmem : slink ∈ r.links
    · refine view_foldl_mem hl env hmajor false hleft s (hnodup.filter _) (by simp [hmem,hnot]) ?_
      intro t hview hrec
      exact held_remove hinv (fun id _ => by rw [hrec]) hother hgone hl.normal hview henv
    · have hview : view slink (udevNodeUpdateOldLinks env s d r.links) = view slink s :=
        view_foldl_not_mem hl env hmajor false hleft s fun h => hmem (List.mem_of_mem_filter h)
      rw [Option.elim_some,hview]
      refine held_other hinv hother hgone ?_
      intro r' hr'
      rw [← Option.some.inj (hr.symm.trans hr')]
      exact hmem

theorem held_new_links (hmem : slink ∈ names d) {node : CString} (hnode : d.devnode = some node)
    (hreach : Reaches node slink) :
    let v := view slink
      (udevNodeAdd env (udevNodeUpdateOldLinks env s d ((s.records (devnum d)).elim [] (·.links))) d)
    Held slink (Function.update s.records (devnum d) (some ⟨d.devnode,d.devlinkPriority,names d⟩)) v ∧
      ((∀ id r, id ≠ devnum d → s.records id = some r → slink ∈ r.links → r.priority ≤ d.devlinkPriority) →
        v.1 = pathRelative node slink utilPathSize) := by
  let old := (s.records (devnum d)).elim [] (·.links)
  let s₁ := udevNodeUpdateOldLinks env s d old
  let s₂ := { s₁ with links := nodeSymlink env s₁.links (devnum d) (d.devnode.getD []) (numberLink d) }
  have hmajor : major d.devnum > 0 := hd.node (List.ne_nil_of_mem hmem)
  have hleft : ∀ name ∈ old.filter (!(names d).contains ·), NameOk slink name := by
    intro name h
    have hold := List.mem_of_mem_filter h
    cases hr : s.records (devnum d) with
    | none => simp [old,hr] at hold
    | some r => exact (hinv.stored _ r hr).2 name (by simpa [old,hr] using hold)
  have hview₁ : view slink s₁ = view slink s :=
    view_foldl_not_mem hl env hmajor false hleft s (by simp [hmem])
  have hview₂ : view slink s₂ = view slink s := by
    rw [← hview₁]
    simp [view,s₂,links_numberLink hl env s₁.links hmajor]
  have hrec₂ : s₂.records = s.records := records_foldl env d false _ s
  refine view_foldl_mem hl env hmajor true hd.nameOk s₂ hd.unique.nodup_names hmem
    (P := fun v => Held slink _ v ∧ (_ → v.1 = _)) ?_
  intro t hview hrec
  exact held_add hinv (fun id _ => by rw [hrec,hrec₂]) hl.normal (hview.trans hview₂) henv hnode hreach hnode rfl hmem

end Step

section Handle

variable {slink : CString} (hl : LinkName slink) {env : Env} (henv : env.isNode slink = false) {s : Sys}
  (hinv : Inv slink s) {d : Device}

theorem records_update : (handle s env (.update d)).records =
    Function.update s.records (devnum d) (some ⟨d.devnode,d.devlinkPriority,names d⟩) := by
  simp only [handle,udevNodeAdd,udevNodeUpdateOldLinks]
  split_ifs
  · rw [records_foldl]
    rw [records_foldl]
  · rfl

theorem records_remove : (handle s env (.remove d)).records = Function.update s.records (devnum d) none := by
  simp only [handle,udevNodeRemove]
  split_ifs
  · rw [records_foldl]
  · rfl

include hl henv hinv

/-- After an update the link is held, by the device itself if no other claimant has a
higher priority. -/
theorem held_update (hok : EventOk slink s (.update d)) :
    Held slink (handle s env (.update d)).records (view slink (handle s env (.update d))) ∧
      (slink ∈ names d →
        (∀ id r, id ≠ devnum d → s.records id = some r → slink ∈ r.links → r.priority ≤ d.devlinkPriority) →
        ∃ node, d.devnode = some node ∧
          (handle s env (.update d)).links slink = pathRelative node slink utilPathSize) := by
  obtain ⟨hd,hreach⟩ := hok
  let old := (s.records (devnum d)).elim [] (·.links)
  have hother : ∀ id, id ≠ devnum d → (handle s env (.update d)).records id = s.records id := by
    intro id hid
    rw [records_update,Function.update_of_ne hid]
  have hgone : slink ∉ names d → ∀ r, (handle s env (.update d)).records (devnum d) = some r → slink ∉ r.links := by
    intro hnot r hr
    rw [records_update,Function.update_self] at hr
    rwa [← Option.some.inj hr]
  by_cases hmajor : major d.devnum > 0
  · have hview : view slink (handle s env (.update d)) =
        view slink (udevNodeAdd env (udevNodeUpdateOldLinks env s d old) d) := by
      simp [view,handle,hmajor,old]
    by_cases hmem : slink ∈ names d
    · obtain ⟨node,hnode,hreach⟩ := hreach hmem
      obtain ⟨hheld,hown⟩ := held_new_links hl henv hinv hd hmem hnode hreach
      rw [records_update,hview]
      refine ⟨hheld,fun _ hmax => ⟨node,hnode,?_⟩⟩
      rw [← hown hmax]
      exact congrArg Prod.fst hview
    · have hold := held_old_links hl henv hinv hmajor hmem hother (hgone hmem)
      refine ⟨?_,fun h => absurd h hmem⟩
      have hadd : view slink (udevNodeAdd env (udevNodeUpdateOldLinks env s d old) d) =
          view slink (udevNodeUpdateOldLinks env s d old) := by
        refine (view_foldl_not_mem hl env hmajor true hd.nameOk _ hmem).trans ?_
        simp [view,links_numberLink hl env _ hmajor]
      rw [hview,hadd]
      exact hold
  · have hnames : names d = [] := by
      by_contra h
      exact hmajor (hd.node h)
    have hmem : slink ∉ names d := by simp [hnames]
    have hview : view slink (handle s env (.update d)) = view slink s := by simp [view,handle,hmajor]
    refine ⟨?_,fun h => absurd h hmem⟩
    rw [hview]
    exact held_other hinv hother (hgone hmem) (not_claims_of_major hinv hd hmajor)

theorem inv_update (hok : EventOk slink s (.update d)) : Inv slink (handle s env (.update d)) := by
  have hheld := (held_update hl henv hinv hok).1
  obtain ⟨hd,hreach⟩ := hok
  refine ⟨hheld,?_,?_⟩
  · intro id r hr hmem
    rw [records_update] at hr
    by_cases hid : id = devnum d
    · subst hid
      rw [Function.update_self] at hr
      obtain rfl := Option.some.inj hr
      have hmajor : major d.devnum > 0 := hd.node (List.ne_nil_of_mem hmem)
      have hhead := devnum_head hd.subsystem
      rw [if_pos hmajor] at hhead
      exact ⟨hhead,hreach hmem⟩
    · rw [Function.update_of_ne hid] at hr
      exact hinv.record id r hr hmem
  · intro id r hr
    rw [records_update] at hr
    by_cases hid : id = devnum d
    · subst hid
      rw [Function.update_self] at hr
      obtain rfl := Option.some.inj hr
      exact ⟨hd.unique.nodup_names,hd.nameOk⟩
    · rw [Function.update_of_ne hid] at hr
      exact hinv.stored id r hr

theorem inv_remove (hok : EventOk slink s (.remove d)) : Inv slink (handle s env (.remove d)) := by
  obtain ⟨hd,hlinks⟩ := hok
  have hother : ∀ id, id ≠ devnum d → (handle s env (.remove d)).records id = s.records id := by
    intro id hid
    rw [records_remove,Function.update_of_ne hid]
  have hgone : ∀ r, (handle s env (.remove d)).records (devnum d) = some r → slink ∉ r.links := by
    intro r hr
    rw [records_remove,Function.update_self] at hr
    cases hr
  have hkept : ∀ id r, (handle s env (.remove d)).records id = some r → s.records id = some r := by
    intro id r hr
    by_cases hid : id = devnum d
    · rw [hid,records_remove,Function.update_self] at hr
      cases hr
    · rwa [hother id hid] at hr
  refine ⟨?_,fun id r hr hmem => hinv.record id r (hkept id r hr) hmem,fun id r hr => hinv.stored id r (hkept id r hr)⟩
  let s₀ : Sys := { s with records := Function.update s.records (devnum d) none }
  have hplace : slink ≠ lookup (numberLink d) := by
    rw [lookup_normal (normal_numberLink d)]
    exact hl.number d
  by_cases hmem : slink ∈ names d
  · have hmajor : major d.devnum > 0 := hd.node (List.ne_nil_of_mem hmem)
    have hview : view slink (handle s env (.remove d)) = view slink ((names d).foldl (linkUpdate env d false) s₀) := by
      simp [view,handle,udevNodeRemove,UInt64.pos_iff_ne_zero.mp hmajor,s₀,hplace]
    rw [hview]
    refine view_foldl_mem hl env hmajor false hd.nameOk s₀ hd.unique.nodup_names hmem ?_
    intro t ht hrec
    exact held_remove hinv (fun id hid => by rw [hrec]; exact Function.update_of_ne hid ..) hother hgone hl.normal ht henv
  · have hview : view slink (handle s env (.remove d)) = view slink s := by
      simp only [handle,udevNodeRemove]
      split_ifs with hmajor
      · refine Eq.trans ?_
          (view_foldl_not_mem hl env (UInt64.pos_iff_ne_zero.mpr hmajor) false hd.nameOk s₀ hmem)
        simp [view,s₀,hplace]
      · rfl
    rw [hview]
    exact held_other hinv hother hgone fun r hr h => hmem (hlinks r hr slink h)

end Handle

/-- Every event of the run meets no device node of the name, and is as it comes. -/
def RunOk (slink : CString) : Sys → List (Env × Event) → Prop
  | _, [] => True
  | s, (env,e)::es => env.isNode slink = false ∧ EventOk slink s e ∧ RunOk slink (handle s env e) es

theorem inv_handle {slink : CString} (hl : LinkName slink) {env : Env} (henv : env.isNode slink = false) {s : Sys}
    (hinv : Inv slink s) {e : Event} (hok : EventOk slink s e) : Inv slink (handle s env e) := by
  cases e with
  | update d => exact inv_update hl henv hinv hok
  | remove d => exact inv_remove hl henv hinv hok

theorem inv_init (slink : CString) : Inv slink {} := by
  refine ⟨⟨List.nodup_nil,?_,?_⟩,?_,?_⟩ <;> simp [view,Owner]

theorem inv_run {slink : CString} (hl : LinkName slink) {s : Sys} (hinv : Inv slink s) {es : List (Env × Event)}
    (hok : RunOk slink s es) : Inv slink (es.foldl (fun s e => handle s e.1 e.2) s) := by
  induction es generalizing s with
  | nil => exact hinv
  | cons e es ih => exact ih (inv_handle hl hok.1 hinv hok.2.1) hok.2.2

theorem runOk_append {slink : CString} {s : Sys} {es es' : List (Env × Event)} (h : RunOk slink s (es ++ es')) :
    RunOk slink s es ∧ RunOk slink (es.foldl (fun s e => handle s e.1 e.2) s) es' := by
  induction es generalizing s with
  | nil => exact ⟨trivial,h⟩
  | cons e es ih =>
    obtain ⟨h₁,h₂,h₃⟩ := h
    obtain ⟨h₄,h₅⟩ := ih h₃
    exact ⟨⟨h₁,h₂,h₄⟩,h₅⟩

/-- After every event of a run: the link exists exactly if a device claims it, it leads
to the node of a claimant of the highest priority, and to the device of the event itself
if no other claimant has a higher priority. -/
theorem symlink_ownership {slink : CString} (hl : LinkName slink) (es : List (Env × Event)) (env : Env) (e : Event)
    (hok : RunOk slink {} (es ++ [(env,e)])) :
    ((run (es ++ [(env,e)])).links slink = none ↔ ∀ id, ¬Claims (run (es ++ [(env,e)])) slink id) ∧
    (∀ content, (run (es ++ [(env,e)])).links slink = some content →
      ∃ id r, (run (es ++ [(env,e)])).records id = some r ∧ slink ∈ r.links ∧
        r.devnode = some (resolve slink content) ∧
        ∀ id' r', (run (es ++ [(env,e)])).records id' = some r' → slink ∈ r'.links → r'.priority ≤ r.priority) ∧
    ∀ d, e = .update d → slink ∈ names d →
      (∀ id r, id ≠ devnum d → (run (es ++ [(env,e)])).records id = some r → slink ∈ r.links →
        r.priority ≤ d.devlinkPriority) →
      ∃ content, (run (es ++ [(env,e)])).links slink = some content ∧ d.devnode = some (resolve slink content) := by
  obtain ⟨hpre,henv,hlast,-⟩ := runOk_append hok
  have hinv : Inv slink (run es) := inv_run hl (inv_init slink) hpre
  have hrun : run (es ++ [(env,e)]) = handle (run es) env e := by simp [run]
  rw [hrun]
  have hinv' := inv_handle hl henv hinv hlast
  have howner : Owner slink _ ((handle (run es) env e).links slink) := hinv'.held.owner
  refine ⟨⟨?_,?_⟩,?_,?_⟩
  · intro hnone id hclaim
    rw [hnone] at howner
    obtain ⟨r,hr,hmem⟩ := hclaim
    exact howner id r hr hmem
  · intro hnone
    cases hcontent : (handle (run es) env e).links slink with
    | none => rfl
    | some content =>
      rw [hcontent] at howner
      obtain ⟨id,r,-,hr,hmem,-⟩ := howner
      exact absurd ⟨r,hr,hmem⟩ (hnone id)
  · intro content hcontent
    rw [hcontent] at howner
    obtain ⟨id,r,node,hr,hmem,hnode,hrel,hmax⟩ := howner
    obtain ⟨-,node',hnode',hreach⟩ := hinv'.record id r hr hmem
    obtain rfl : node' = node := Option.some.inj (hnode'.symm.trans hnode)
    refine ⟨id,r,hr,hmem,?_,hmax⟩
    rw [resolve_pathRelative hreach.1 hl.normal hrel,hnode]
  · rintro d rfl hmem hmax
    have hmax' : ∀ id r, id ≠ devnum d → (run es).records id = some r → slink ∈ r.links →
        r.priority ≤ d.devlinkPriority := by
      intro id r hid hr
      exact hmax id r hid (by rw [records_update,Function.update_of_ne hid,hr])
    obtain ⟨node,hnode,hlink⟩ := (held_update hl henv hinv hlast).2 hmem hmax'
    obtain ⟨node',hnode',hreach⟩ := hlast.2 hmem
    obtain rfl : node' = node := Option.some.inj (hnode'.symm.trans hnode)
    obtain ⟨content,hrel⟩ := Option.isSome_iff_exists.mp hreach.2.2
    refine ⟨content,by rw [hlink,hrel],?_⟩
    rw [resolve_pathRelative hreach.1 hl.normal hrel,hnode]

def disk (devnum : UInt64) (devnode : String) (links : UdevList) (priority : ℤ) : Device where
  subsystem := some (str "block")
  devnum := devnum
  devnode := some (str devnode)
  devlinksList := links
  devlinkPriority := priority

/-- Directories are read in order, and the disks are the only nodes. -/
def diskEnv : Env := ⟨fun _ files => files,fun _ files => List.Perm.refl files,
  fun path => path = str "/dev/sda" ∨ path = str "/dev/sdb"⟩

theorem not_claims_update {env : Env} {d : Device} {slink : CString} (h : slink ∉ names d) :
    ∀ id, ¬Claims (run [(env,.update d)]) slink id := by
  rintro id ⟨r,hr,hmem⟩
  simp only [run,List.foldl_cons,List.foldl_nil,records_update] at hr
  by_cases hid : id = devnum d
  · rw [hid,Function.update_self] at hr
    obtain rfl := Option.some.inj hr
    exact h hmem
  · rw [Function.update_of_ne hid] at hr
    cases hr

/-- The link by number is there without a claim, and so is a link that is claimed under another spelling. -/
theorem link_unclaimed :
    ((run [(diskEnv,.update (disk 0x800 "/dev/sda" [] 0))]).links (str "/dev/block/8:0") = some (str "../sda") ∧
      ∀ id, ¬Claims (run [(diskEnv,.update (disk 0x800 "/dev/sda" [] 0))]) (str "/dev/block/8:0") id) ∧
    (run [(diskEnv,.update (disk 0x800 "/dev/sda" [⟨str "/dev/./root",none,0⟩] 0))]).links (str "/dev/root") ≠ none ∧
      ∀ id, ¬Claims (run [(diskEnv,.update (disk 0x800 "/dev/sda" [⟨str "/dev/./root",none,0⟩] 0))]) (str "/dev/root") id :=
  ⟨⟨by decide +kernel,not_claims_update (by decide)⟩,by decide +kernel,not_claims_update (by decide)⟩

theorem linkName_root : LinkName (str "/dev/root") where
  fits := by decide
  normal := ⟨[str "dev",str "root"],by decide,by decide,by decide⟩
  number d h := by
    have hchar := congrArg (charAt · 5) h
    by_cases hb : isBlock d <;> simp [numberLink,hb,charAt,str] at hchar
  tmp := by decide

theorem deviceOk_disk {devnum : UInt64} (h : major devnum > 0) (devnode : String) (priority : ℤ) :
    DeviceOk (str "/dev/root") (disk devnum devnode [⟨str "/dev/root",none,0⟩] priority) where
  subsystem := rfl
  unique := List.pairwise_singleton _ _
  nameOk := by
    intro name hname
    obtain rfl : name = str "/dev/root" := by simpa [names,disk] using hname
    exact ⟨by decide,fun _ => rfl⟩
  node _ := h

/-- Two disks of equal priority: the second one has the link. -/
theorem symlink_ownership_disks :
    ∃ content, (run [(diskEnv,.update (disk 0x800 "/dev/sda" [⟨str "/dev/root",none,0⟩] 5)),
        (diskEnv,.update (disk 0x810 "/dev/sdb" [⟨str "/dev/root",none,0⟩] 5))]).links (str "/dev/root") = some content ∧
      some (str "/dev/sdb") = some (resolve (str "/dev/root") content) := by
  refine (symlink_ownership linkName_root [(diskEnv,.update (disk 0x800 "/dev/sda" [⟨str "/dev/root",none,0⟩] 5))]
    diskEnv (.update (disk 0x810 "/dev/sdb" [⟨str "/dev/root",none,0⟩] 5)) ?_).2.2 _ rfl (by decide) ?_
  · refine ⟨by decide,⟨deviceOk_disk (by decide) _ _,fun _ => ⟨str "/dev/sda",rfl,?_,by decide,by decide⟩⟩,
      by decide,⟨deviceOk_disk (by decide) _ _,fun _ => ⟨str "/dev/sdb",rfl,?_,by decide,by decide⟩⟩,trivial⟩
    · exact ⟨[str "dev",str "sda"],by decide,by decide,by decide⟩
    · exact ⟨[str "dev",str "sdb"],by decide,by decide,by decide⟩
  · intro id r hid hr _
    simp only [run,List.cons_append,List.nil_append,List.foldl_cons,List.foldl_nil,records_update] at hr
    rw [Function.update_of_ne hid] at hr
    by_cases hfirst : id = devnum (disk 0x800 "/dev/sda" [⟨str "/dev/root",none,0⟩] 5)
    · rw [hfirst,Function.update_self] at hr
      rw [← Option.some.inj hr]
      decide
    · rw [Function.update_of_ne hfirst] at hr
      cases hr

end Symlinks
end Udev
