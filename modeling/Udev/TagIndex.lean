import Udev.ExecuteRules
import Udev.RulesFile

/-! The tag index: after each event it has the entries of the tags in the database, as long as
the database can be read back. -/
namespace Udev
namespace ExecuteRules

open CString Text Decimal Database Device Rules DevPath

def tagDir (tag : CString) : List CString := [str "run",str "udev",str "tags"] ++ tag.splitOn (chr '/')

def tagEntry (id tag : CString) : List CString := tagDir tag ++ [id]

/-- A tag that names a directory of the index in its own right, and none with the name of the device. -/
structure TagOk (id tag : CString) : Prop where
  file : Component id
  parts : ∀ part ∈ tag.splitOn (chr '/'), Component part ∧ part ≠ id
  fits : (absPath (tagEntry id tag)).length < utilPathSize
  short : ∀ name ∈ tagEntry id tag, shortName name = true

theorem absPath_splitOn (s : CString) : absPath (s.splitOn (chr '/')) = chr '/'::s := by
  obtain ⟨c,cs,hcs⟩ := List.exists_cons_of_ne_nil (List.splitOn_ne_nil (chr '/') s)
  have hjoin : [chr '/'].intercalate (s.splitOn (chr '/')) = s := List.intercalate_splitOn (chr '/')
  rw [hcs,intercalate_absPath] at hjoin
  have habs : absPath (c::cs) = chr '/'::(c ++ absPath cs) := rfl
  rw [hcs,habs,hjoin]

theorem tagEntry_injective {id t t' : CString} (h : tagEntry id t = tagEntry id t') : t = t' := by
  have hsplit : t.splitOn (chr '/') = t'.splitOn (chr '/') := List.append_cancel_left (List.append_cancel_right h)
  have hjoin := congrArg (List.intercalate [chr '/']) hsplit
  rwa [List.intercalate_splitOn,List.intercalate_splitOn] at hjoin

section Names

variable {id tag : CString} (h : TagOk id tag)
include h

theorem TagOk.components : ∀ c ∈ tagEntry id tag, Component c := by
  intro c hc
  simp only [tagEntry,tagDir,List.mem_append,List.mem_singleton] at hc
  rcases hc with (hc | hc) | rfl
  · revert c
    decide
  · exact (h.parts c hc).1
  · exact h.file

theorem TagOk.tagFile : tagFile id tag = absPath (tagEntry id tag) := by
  have hflat : [str "/run/udev/tags/",tag,str "/",id].flatten = absPath (tagEntry id tag) := by
    have htop : absPath [str "run",str "udev",str "tags"] = str "/run/udev/tags" := by decide
    have hroot : str "/run/udev/tags/" = str "/run/udev/tags" ++ [chr '/'] := by decide
    have hslash : str "/" = [chr '/'] := by decide
    have happend : absPath (tagEntry id tag) =
        absPath [str "run",str "udev",str "tags"] ++ absPath (tag.splitOn (chr '/')) ++ absPath [id] := by
      simp only [absPath,tagEntry,tagDir,List.flatMap_append]
    rw [happend,htop,absPath_splitOn,hroot,hslash]
    simp [absPath]
  rw [ExecuteRules.tagFile,strscpyl_fits (by rw [hflat]; exact h.fits),hflat]

theorem TagOk.plain : ∀ c ∈ tagEntry id tag, FileTree.Plain enter shortName c := by
  intro c hc
  obtain ⟨hne,-,hdot,hdots⟩ := h.components c hc
  refine ⟨h.short c hc,fun dir => ?_⟩
  rw [enter,if_neg (not_or.mpr ⟨hne,hdot⟩),if_neg hdots]

theorem TagOk.names : ((ExecuteRules.tagFile id tag).splitOn (chr '/')).dropLast = []::tagDir tag ∧
    ((ExecuteRules.tagFile id tag).splitOn (chr '/')).getLastD [] = id := by
  rw [h.tagFile,splitOn_absPath fun c hc => (h.components c hc).2.1]
  have hsplit : ([]::tagEntry id tag : List CString) = ([]::tagDir tag) ++ [id] := rfl
  rw [hsplit,List.dropLast_concat,List.getLastD_concat]
  exact ⟨rfl,rfl⟩

theorem TagOk.not_above (t : CString) : ¬tagEntry id t <+: tagDir tag := by
  intro hpre
  simp only [tagEntry,tagDir,List.append_assoc] at hpre
  have hmem : id ∈ tag.splitOn (chr '/') := (List.prefix_append_right_inj _).mp hpre |>.subset (by simp)
  exact (h.parts id hmem).2 rfl

end Names

section Index

variable {s : RunDir} {id : CString}

/-- The first name of an absolute path is empty: the lookup stays at the root. -/
theorem tag_add {t : CString} (h : TagOk id t) (s : RunDir) :
    (udevDeviceTag s id t true).tags = FileTree.create enter shortName
      (FileTree.mkdirs enter shortName s.tags [] (tagDir t)) (tagDir t) id := by
  unfold udevDeviceTag
  dsimp only
  rw [h.names.1,h.names.2]
  rfl

theorem tag_remove {t : CString} (h : TagOk id t) (s : RunDir) :
    (udevDeviceTag s id t false).tags = FileTree.unlink enter shortName s.tags (tagDir t) id := by
  unfold udevDeviceTag
  dsimp only
  rw [h.names.1,h.names.2]
  rfl

theorem foldl_tag_remove (id : CString) (ts : List CString) (s : RunDir) (p : List CString) :
    (ts.foldl (udevDeviceTag · id · false) s).tags p = s.tags p ∨
      (ts.foldl (udevDeviceTag · id · false) s).tags p = none ∧ s.tags p = some .file := by
  induction ts generalizing s with
  | nil => exact Or.inl rfl
  | cons t ts ih =>
    have hone : (udevDeviceTag s id t false).tags p = s.tags p ∨
        (udevDeviceTag s id t false).tags p = none ∧ s.tags p = some .file := FileTree.unlink_cases _ _ _ _
    rw [List.foldl_cons]
    rcases ih (udevDeviceTag s id t false) with heq | ⟨hnone,hfile⟩
    · rw [heq]
      exact hone
    · rcases hone with heq | ⟨heq,-⟩
      · exact Or.inr ⟨hnone,heq ▸ hfile⟩
      · rw [heq] at hfile
        cases hfile

theorem foldl_tag_removed {ts : List CString} {t : CString} (ht : t ∈ ts) (hok : TagOk id t)
    (hreach : FileTree.Reached s.tags (tagDir t)) :
    (ts.foldl (udevDeviceTag · id · false) s).tags (tagEntry id t) ≠ some .file := by
  obtain ⟨pre,post,rfl⟩ := List.append_of_mem ht
  rw [List.foldl_append,List.foldl_cons]
  generalize hmid : pre.foldl (udevDeviceTag · id · false) s = mid
  have hkept := foldl_tag_remove id pre s
  rw [hmid] at hkept
  have hmidreach : FileTree.Reached mid.tags (tagDir t) := by
    intro dir hdir
    refine (hreach dir hdir).imp_right fun hd => ?_
    rcases hkept dir with heq | ⟨-,hfile⟩
    · exact heq.trans hd
    · rw [hd] at hfile
      cases hfile
  have hgone : (udevDeviceTag mid id t false).tags (tagEntry id t) ≠ some .file := by
    rw [tag_remove hok]
    exact FileTree.unlink_self (fun c hc => hok.plain c (List.mem_append_left _ hc))
      (hok.plain id (List.mem_append_right _ (List.mem_singleton_self id))) hmidreach
  rcases foldl_tag_remove id post (udevDeviceTag mid id t false) (tagEntry id t) with heq | ⟨heq,-⟩
  · rw [heq]
    exact hgone
  · rw [heq]
    exact fun h => by cases h

/-- What adding tags changes: their entries are files, and there are new directories on the way to them. -/
def Grows (id : CString) (ts : List CString) (fs fs' : FileTree CString) : Prop :=
  ∀ p, fs' p = fs p ∨ (∃ t ∈ ts, p = tagEntry id t ∧ fs' p = some .file) ∨
    ∃ t ∈ ts, p <+: tagDir t ∧ fs' p = some .dir

theorem tag_grows {t : CString} (hok : TagOk id t) (hfree : FileTree.Free s.tags (tagDir t) id) :
    Grows id [t] s.tags (udevDeviceTag s id t true).tags ∧
      (udevDeviceTag s id t true).tags (tagEntry id t) = some .file ∧
      FileTree.Reached (udevDeviceTag s id t true).tags (tagDir t) := by
  obtain ⟨hfile,hreach,hrest⟩ := FileTree.create_mkdirs
    (fun c hc => hok.plain c (List.mem_append_left _ hc))
    (hok.plain id (List.mem_append_right _ (List.mem_singleton_self id))) hfree
  rw [← tag_add hok] at hfile hreach hrest
  refine ⟨fun p => ?_,hfile,hreach⟩
  rcases hrest p with heq | rfl | ⟨hdir,hpre⟩
  · exact Or.inl heq
  · exact Or.inr (Or.inl ⟨t,List.mem_singleton_self t,rfl,hfile⟩)
  · exact Or.inr (Or.inr ⟨t,List.mem_singleton_self t,hpre,hdir⟩)

theorem Grows.reached {ts : List CString} {fs fs' : FileTree CString} (h : Grows id ts fs fs') {t : CString}
    (hok : TagOk id t) (hreach : FileTree.Reached fs (tagDir t)) : FileTree.Reached fs' (tagDir t) := by
  intro dir hdir
  refine (hreach dir hdir).imp_right fun hd => ?_
  rcases h dir with heq | ⟨t',-,rfl,-⟩ | ⟨t',-,-,hnew⟩
  · exact heq.trans hd
  · exact absurd ((List.mem_inits _ _).mp hdir) (hok.not_above t')
  · exact hnew

theorem Grows.free {ts : List CString} {fs fs' : FileTree CString} (h : Grows id ts fs fs')
    (hts : ∀ t ∈ ts, TagOk id t) {t : CString} (hok : TagOk id t) (hfree : FileTree.Free fs (tagDir t) id) :
    FileTree.Free fs' (tagDir t) id := by
  constructor
  · intro dir hdir
    rcases h dir with heq | ⟨t',-,rfl,-⟩ | ⟨t',-,-,hnew⟩
    · rw [heq]
      exact hfree.way dir hdir
    · exact absurd ((List.mem_inits _ _).mp hdir) (hok.not_above t')
    · rw [hnew]
      exact fun h => by cases h
  · rcases h (tagDir t ++ [id]) with heq | ⟨t',-,-,hnew⟩ | ⟨t',ht',hpre,-⟩
    · rw [heq]
      exact hfree.file
    · rw [hnew]
      exact fun h => by cases h
    · exact absurd hpre ((hts t' ht').not_above t)

theorem foldl_tag_add {ts : List CString} (hts : ∀ t ∈ ts, TagOk id t)
    (hfree : ∀ t ∈ ts, FileTree.Free s.tags (tagDir t) id) :
    Grows id ts s.tags (ts.foldl (udevDeviceTag · id · true) s).tags ∧
      ∀ t ∈ ts, (ts.foldl (udevDeviceTag · id · true) s).tags (tagEntry id t) = some .file ∧
        FileTree.Reached (ts.foldl (udevDeviceTag · id · true) s).tags (tagDir t) := by
  induction ts generalizing s with
  | nil => exact ⟨fun p => Or.inl rfl,fun t ht => absurd ht List.not_mem_nil⟩
  | cons t ts ih =>
    have hok := hts t List.mem_cons_self
    obtain ⟨hgrows,hfile,hreach⟩ := tag_grows hok (hfree t List.mem_cons_self)
    have hrest : ∀ x ∈ ts, TagOk id x := fun x hx => hts x (List.mem_cons_of_mem _ hx)
    obtain ⟨hgrows',hfiles⟩ := ih (s := udevDeviceTag s id t true) hrest fun x hx =>
      hgrows.free (fun y hy => List.mem_singleton.mp hy ▸ hok) (hrest x hx) (hfree x (List.mem_cons_of_mem _ hx))
    rw [List.foldl_cons]
    refine ⟨fun p => ?_,fun x hx => ?_⟩
    · rcases hgrows' p with heq | ⟨x,hx,hp⟩ | ⟨x,hx,hp⟩
      · rw [heq]
        rcases hgrows p with heq | ⟨x,hx,hp⟩ | ⟨x,hx,hp⟩
        · exact Or.inl heq
        · exact Or.inr (Or.inl ⟨x,List.mem_singleton.mp hx ▸ List.mem_cons_self,hp⟩)
        · exact Or.inr (Or.inr ⟨x,List.mem_singleton.mp hx ▸ List.mem_cons_self,hp⟩)
      · exact Or.inr (Or.inl ⟨x,List.mem_cons_of_mem _ hx,hp⟩)
      · exact Or.inr (Or.inr ⟨x,List.mem_cons_of_mem _ hx,hp⟩)
    · rcases List.mem_cons.mp hx with rfl | hx
      · refine ⟨?_,hgrows'.reached hok hreach⟩
        rcases hgrows' (tagEntry id x) with heq | ⟨x',-,-,hnew⟩ | ⟨x',hx',hpre,-⟩
        · exact heq.trans hfile
        · exact hnew
        · exact absurd hpre ((hrest x' hx').not_above x)
      · exact hfiles x hx
def storedTags (s : RunDir) (id : CString) : List CString := (s.data id).elim [] fun file => tagNames (readDb {} file)

/-- The index has the entries of the stored tags. -/
def Agrees (s : RunDir) (id : CString) : Prop := ∀ t, s.tags (tagEntry id t) = some .file ↔ t ∈ storedTags s id

/-- Every entry of the device in the index can be removed and is of a tag that is read back from its
database, whatever the device that reads it. -/
def Indexed (id : CString) (s : RunDir) : Prop :=
  ∀ t, s.tags (tagEntry id t) = some .file → TagOk id t ∧ FileTree.Reached s.tags (tagDir t) ∧
    ∃ file, s.data id = some file ∧ ∀ d₀, t ∈ tagNames (readDb d₀ file)

end Index

/-- An event of the device with the id, as it is received. -/
structure Received {σ : Type} (id : CString) (u : Uevent σ) : Prop where
  id : Symlinks.idFilename u.event.dev = some id
  tags : ValidTags u.event.dev

/-- The device that is written can be read back, and its tags are directories. -/
structure Written (id : CString) (dev : Device) : Prop where
  lines : ∀ line ∈ dbLines dev, LineOk line
  tags : ∀ t ∈ tagNames dev, TagOk id t

instance (id tag : CString) : Decidable (TagOk id tag) :=
  decidable_of_iff (Component id ∧ (∀ part ∈ tag.splitOn (chr '/'), Component part ∧ part ≠ id) ∧
      (absPath (tagEntry id tag)).length < utilPathSize ∧ ∀ name ∈ tagEntry id tag, shortName name = true)
    ⟨fun h => ⟨h.1,h.2.1,h.2.2.1,h.2.2.2⟩,fun h => ⟨h.file,h.parts,h.fits,h.short⟩⟩

instance (id : CString) (dev : Device) : Decidable (Written id dev) :=
  decidable_of_iff ((∀ line ∈ dbLines dev, LineOk line) ∧ ∀ t ∈ tagNames dev, TagOk id t)
    ⟨fun h => ⟨h.1,h.2⟩,fun h => ⟨h.lines,h.tags⟩⟩

/-- The events of the device with the id: of those that are no removal the rules leave a device that
can be read back, and no file of the index is in the way of its entries. -/
def EventOk {σ : Type} (h : Host σ) (id : CString) (s : RunDir) (u : Uevent σ) : Prop :=
  Received id u ∧ (u.event.dev.action ≠ some .remove → Written id (ruledDevice h u s id) ∧
    ∀ t ∈ tagNames (ruledDevice h u s id), FileTree.Free s.tags (tagDir t) id)

instance {σ : Type} (id : CString) (u : Uevent σ) : Decidable (Received id u) :=
  decidable_of_iff (Symlinks.idFilename u.event.dev = some id ∧ ValidTags u.event.dev)
    ⟨fun h => ⟨h.1,h.2⟩,fun h => ⟨h.id,h.tags⟩⟩

instance {σ : Type} (h : Host σ) (id : CString) (s : RunDir) (u : Uevent σ) : Decidable (EventOk h id s u) :=
  inferInstanceAs (Decidable (_ ∧ (_ → _)))

section Events

variable {σ : Type} {h : Host σ} {u : Uevent σ} {s : RunDir} {id : CString}

/-- The entries of the device are among the tags of the device read from the old database. -/
theorem Indexed.mem_read (hs : Indexed id s) {t : CString} (ht : s.tags (tagEntry id t) = some .file) (d : Device) :
    TagOk id t ∧ FileTree.Reached s.tags (tagDir t) ∧ t ∈ tagNames (udevDeviceReadDb s id d) := by
  obtain ⟨hok,hreach,file,hfile,hmem⟩ := hs t ht
  refine ⟨hok,hreach,?_⟩
  rw [udevDeviceReadDb,hfile]
  exact hmem d

theorem remove_agrees (hs : Indexed id s) (hu : Received id u) (haction : u.event.dev.action = some .remove) :
    (∀ t, (udevEventExecuteRules h u s).2.tags (tagEntry id t) ≠ some .file) ∧
      (udevEventExecuteRules h u s).2.data id = none := by
  obtain ⟨dev,hdev⟩ : ∃ dev, udevDeviceReadDb s id u.event.dev = dev := ⟨_,rfl⟩
  have hframe := foldl_tag_frame (tagNames dev) false (udevDeviceDeleteDb s id) id
  have hend := watchEnd_frame (udevDeviceTagIndex (udevDeviceDeleteDb s id) id dev none false) dev
  have htags : (udevEventExecuteRules h u s).2.tags =
      (udevDeviceTagIndex (udevDeviceDeleteDb s id) id dev none false).tags ∧
      (udevEventExecuteRules h u s).2.data = (udevDeviceTagIndex (udevDeviceDeleteDb s id) id dev none false).data := by
    rw [(execute_remove hu.id haction).2]
    simp only [hdev]
    split_ifs
    · exact ⟨hend.1,hend.2.1⟩
    · exact ⟨rfl,rfl⟩
  rw [htags.1,htags.2]
  refine ⟨fun t htrue => ?_,?_⟩
  · have hentry : s.tags (tagEntry id t) = some .file := by
      rcases foldl_tag_remove id (tagNames dev) (udevDeviceDeleteDb s id) (tagEntry id t) with heq | ⟨heq,-⟩
      · exact heq.symm.trans htrue
      · exact absurd (heq.symm.trans htrue) (by simp)
    obtain ⟨hok,hreach,ht⟩ := hs.mem_read hentry u.event.dev
    rw [hdev] at ht
    exact foldl_tag_removed (s := udevDeviceDeleteDb s id) ht hok hreach htrue
  · refine (congrFun hframe.1 id).trans ?_
    exact Function.update_self id none s.data

/-- When the index has the entries of a device and its database was written, the two agree. -/
theorem agrees_of_written {d : Device} (htags : ∀ t, s.tags (tagEntry id t) = some .file ↔ t ∈ tagNames d)
    (hreach : ∀ t ∈ tagNames d, FileTree.Reached s.tags (tagDir t)) (hdata : s.data id = updateDb d) (hd : Written id d) (hvalid : ValidTags d) : Agrees s id ∧ Indexed id s := by
  cases hfile : updateDb d with
  | none =>
    have hnil := (updateDb_eq_none hfile).1
    rw [hfile] at hdata
    refine ⟨fun t => ?_,fun t ht => ?_⟩
    · rw [htags,hnil,storedTags,hdata]
      rfl
    · rw [htags,hnil] at ht
      exact absurd ht List.not_mem_nil
  | some file =>
    rw [hfile] at hdata
    have hread := fun d₀ => (readDb_written hfile hd.lines hvalid d₀).1
    refine ⟨fun t => ?_,fun t ht => ?_⟩
    · have hempty : tagNames {} = [] := rfl
      rw [htags,storedTags,hdata,Option.elim_some,hread,hempty]
      simp
    · have hmem := (htags t).mp ht
      exact ⟨hd.tags t hmem,hreach t hmem,file,hdata,fun d₀ => (hread d₀ t).mpr (Or.inr hmem)⟩

/-- After any other event the index has the tags of the device that is written. -/
theorem other_tags (hs : Indexed id s) (hu : EventOk h id s u) (haction : u.event.dev.action ≠ some .remove) :
    (∀ t, (udevEventExecuteRules h u s).2.tags (tagEntry id t) = some .file ↔ t ∈ tagNames (ruledDevice h u s id)) ∧
      (∀ t ∈ tagNames (ruledDevice h u s id), FileTree.Reached (udevEventExecuteRules h u s).2.tags (tagDir t)) ∧
      (udevEventExecuteRules h u s).2.data id = updateDb (ruledDevice h u s id) := by
  obtain ⟨hrec,hother⟩ := hu
  obtain ⟨hwritten,hfree⟩ := hother haction
  have hnames := hwritten.tags
  obtain ⟨-,-,-,hstate⟩ := execute_other (h := h) (s := s) hrec.id haction
  obtain ⟨dev,hruled⟩ : ∃ dev, ruledDevice h u s id = dev := ⟨_,rfl⟩
  obtain ⟨old,hold⟩ : ∃ old, oldDevice u s id = old := ⟨_,rfl⟩
  obtain ⟨holdtags,-,holdnames⟩ := oldDevice_frame u s id
  rw [hruled] at hnames hfree
  rw [hold] at holdtags holdnames
  rw [hstate,hruled,hold]
  have hbefore : (udevDeviceUpdateDb old.1 id dev).tags = s.tags := holdtags
  obtain ⟨left,hleft⟩ : ∃ left, ((tagNames old.2).filter (· ∉ tagNames dev)).foldl (udevDeviceTag · id · false)
      (udevDeviceUpdateDb old.1 id dev) = left := ⟨_,rfl⟩
  have hleftframe := foldl_tag_frame ((tagNames old.2).filter (· ∉ tagNames dev)) false (udevDeviceUpdateDb old.1 id dev) id
  have hcases := foldl_tag_remove id ((tagNames old.2).filter (· ∉ tagNames dev)) (udevDeviceUpdateDb old.1 id dev)
  rw [hleft] at hleftframe hcases
  rw [hbefore] at hcases
  have hfinal : udevDeviceTagIndex (udevDeviceUpdateDb old.1 id dev) id dev (some old.2) true =
      (tagNames dev).foldl (udevDeviceTag · id · true) left := by
    rw [← hleft]
    rfl
  have hroom : ∀ t ∈ tagNames dev, FileTree.Free left.tags (tagDir t) id := by
    intro t ht
    obtain ⟨hway,hfile⟩ := hfree t ht
    constructor
    · intro dir hdir htrue
      rcases hcases dir with heq | ⟨heq,-⟩
      · exact hway dir hdir (heq.symm.trans htrue)
      · rw [heq] at htrue
        cases htrue
    · intro htrue
      rcases hcases (tagDir t ++ [id]) with heq | ⟨heq,-⟩
      · exact hfile (heq.symm.trans htrue)
      · rw [heq] at htrue
        cases htrue
  obtain ⟨hgrows,hfiles⟩ := foldl_tag_add hnames hroom
  rw [hfinal]
  refine ⟨fun t => ⟨fun ht => ?_,fun ht => (hfiles t ht).1⟩,fun t ht => (hfiles t ht).2,?_⟩
  · rcases hgrows (tagEntry id t) with heq | ⟨t',ht',heq,-⟩ | ⟨-,-,-,hdir⟩
    · have hkept : left.tags (tagEntry id t) = some .file := heq.symm.trans ht
      have hentry : s.tags (tagEntry id t) = some .file := by
        rcases hcases (tagEntry id t) with heq | ⟨heq,-⟩
        · exact heq.symm.trans hkept
        · exact absurd (heq.symm.trans hkept) (by simp)
      obtain ⟨hok,hreach,hread⟩ := hs.mem_read hentry
        ((Device.setSyspath {} u.event.dev.syspath).setSubsystem (u.event.dev.subsystem.getD []))
      rw [← holdnames] at hread
      by_contra hnew
      have hmem : t ∈ (tagNames old.2).filter (· ∉ tagNames dev) := List.mem_filter.mpr ⟨hread,by simpa using hnew⟩
      have hgone := foldl_tag_removed (s := udevDeviceUpdateDb old.1 id dev) hmem hok (hbefore ▸ hreach)
      rw [hleft] at hgone
      exact hgone hkept
    · exact tagEntry_injective heq ▸ ht'
    · rw [ht] at hdir
      cases hdir
  · rw [(foldl_tag_frame _ _ _ _).1,hleftframe.1]
    exact Function.update_self id _ old.1.data

/-- After any other event the index and the database have the same tags. -/
theorem other_agrees (hs : Indexed id s) (hu : EventOk h id s u) (haction : u.event.dev.action ≠ some .remove) :
    Agrees (udevEventExecuteRules h u s).2 id ∧ Indexed id (udevEventExecuteRules h u s).2 := by
  obtain ⟨htags,hreach,hdata⟩ := other_tags hs hu haction
  obtain ⟨-,-,hvalid,-⟩ := execute_other (h := h) (s := s) hu.1.id haction
  exact agrees_of_written htags hreach hdata (hu.2 haction).1 (hvalid hu.1.tags)

theorem Written.watchHandle {d : Device} (hd : Written id d) (wd : ℤ) : Written id { d with watchHandle := wd } := by
  refine ⟨fun line hline => ?_,hd.tags⟩
  rcases dbLines_watchHandle d wd line hline with hline | rfl
  · exact hd.lines line hline
  · exact lineOk_printInt (by decide) wd

/-- The index is named by the database again after the worker has put a watch on the node. -/
theorem worker_indexed (hs : Indexed id s) (hu : EventOk h id s u) : Indexed id (workerEvent h u s).2 := by
  obtain ⟨r,hr⟩ : ∃ r, udevEventExecuteRules h u s = r := ⟨_,rfl⟩
  have hframe := watchBegin_frame u.canWatch r.2 id r.1.dev
  have hworker : workerEvent h u s = if r.1.inotifyWatch then
      ({ r.1 with dev := (udevWatchBegin u.canWatch r.2 id r.1.dev).2 },
        udevDeviceUpdateDb (udevWatchBegin u.canWatch r.2 id r.1.dev).1 id (udevWatchBegin u.canWatch r.2 id r.1.dev).2)
      else r := by
    rw [workerEvent,hu.1.id]
    simp only [hr]
  rw [hworker]
  by_cases haction : u.event.dev.action = some .remove
  · have hnone := (remove_agrees (h := h) hs hu.1 haction).1
    rw [hr] at hnone
    intro t ht
    have hsame : r.2.tags (tagEntry id t) = some .file := by
      split_ifs at ht
      · rw [← hframe.1]
        exact ht
      · exact ht
    exact absurd hsame (hnone t)
  · split_ifs
    · obtain ⟨hdev,-,hvalid,-⟩ := execute_other (h := h) (s := s) hu.1.id haction
      obtain ⟨htags,hreach,-⟩ := other_tags hs hu haction
      rw [hr] at hdev htags hreach
      obtain ⟨wd,hwd⟩ := watchBegin_device u.canWatch r.2 id r.1.dev
      rw [hwd,hdev]
      refine (agrees_of_written (fun t => ?_) (fun t ht => ?_) (Function.update_self id _ _)
        ((hu.2 haction).1.watchHandle wd) (hvalid hu.1.tags)).2
      · rw [← hdev]
        exact (congrArg (· (tagEntry id t) = some .file) hframe.1).to_iff.trans (hdev ▸ htags t)
      · rw [← hdev]
        exact (congrArg (FileTree.Reached · (tagDir t)) hframe.1).mpr (hreach t ht)
    · rw [← hr]
      exact (other_agrees hs hu haction).2

def workerStep (h : Host σ) (s : RunDir) (u : Uevent σ) : Option RunDir := some (workerEvent h u s).2

/-- After each event of the sequence the index and the database have the same tags; after a removal
they have none. -/
def IndexAgrees (h : Host σ) (id : CString) (s₀ : RunDir) (us : List (Uevent σ)) : Prop :=
  ∀ pre u s, pre ++ [u] <+: us → Runs.run (workerStep h) s₀ pre = some s →
    Agrees (udevEventExecuteRules h u s).2 id ∧ (u.event.dev.action = some .remove →
      (∀ t, (udevEventExecuteRules h u s).2.tags (tagEntry id t) ≠ some .file) ∧
        storedTags (udevEventExecuteRules h u s).2 id = [])

theorem event_agrees (hs : Indexed id s) (hu : EventOk h id s u) :
    Agrees (udevEventExecuteRules h u s).2 id ∧ (u.event.dev.action = some .remove →
      (∀ t, (udevEventExecuteRules h u s).2.tags (tagEntry id t) ≠ some .file) ∧
        storedTags (udevEventExecuteRules h u s).2 id = []) := by
  by_cases haction : u.event.dev.action = some .remove
  · obtain ⟨hnone,hdata⟩ := remove_agrees (h := h) hs hu.1 haction
    have hstored : storedTags (udevEventExecuteRules h u s).2 id = [] := by rw [storedTags,hdata]; rfl
    exact ⟨fun t => by simp [hnone,hstored],fun _ => ⟨hnone,hstored⟩⟩
  · exact ⟨(other_agrees hs hu haction).1,fun hremove => absurd hremove haction⟩

theorem run_agrees {s₀ : RunDir} {us : List (Uevent σ)} (hs : Indexed id s₀)
    (hok : Runs.Along (workerStep h) (EventOk h id) s₀ us) : IndexAgrees h id s₀ us := by
  induction us generalizing s₀ with
  | nil =>
    intro pre u s hpre
    exact absurd (List.prefix_nil.mp hpre) (by simp)
  | cons u us ih =>
    obtain ⟨hu,hus⟩ := Runs.along_cons rfl hok
    intro pre u' s hpre hrun
    cases pre with
    | nil =>
      obtain ⟨rfl,-⟩ := List.cons_prefix_cons.mp hpre
      obtain rfl := Option.some.inj hrun
      exact event_agrees hs hu
    | cons v pre =>
      obtain ⟨rfl,hrest⟩ := List.cons_prefix_cons.mp hpre
      exact ih (worker_indexed hs hu) hus pre u' s hrest hrun

theorem tag_index_agrees {s₀ : RunDir} {us : List (Uevent σ)} (hnone : ∀ t, s₀.tags (tagEntry id t) ≠ some .file)
    (hok : Runs.Along (workerStep h) (EventOk h id) s₀ us) : IndexAgrees h id s₀ us := by
  exact run_agrees (fun t ht => absurd ht (hnone t)) hok

end Events

def diskEvent (action : Action) (rules : String) : Uevent Unit where
  event := { dev := { devnum := 0x800, subsystem := some (str "block"), action := some action } }
  rules := rulesLoad plainOptions [some (str rules)]
  host := ()

set_option maxRecDepth 8000 in
theorem tag_index_agrees_disk : IndexAgrees emptyHost (str "b8:0") {} [diskEvent .add "TAG+=\"seat\"\n",
    diskEvent .change "TAG=\"uaccess\"\n",diskEvent .remove ""] := by
  refine tag_index_agrees (fun _ h => by cases h) ?_
  decide +kernel

set_option maxRecDepth 8000 in
/-- A tag whose value is empty: the line is not read back, and the other tag stays in the index. -/
theorem stale_tag : ¬IndexAgrees emptyHost (str "b8:0") {}
    [diskEvent .add "TAG+=\"$env{ID_SEAT}\"\nTAG+=\"seat\"\n",diskEvent .change ""] := by
  intro h
  have hlast := (h [diskEvent .add "TAG+=\"$env{ID_SEAT}\"\nTAG+=\"seat\"\n"] (diskEvent .change "") _
    List.prefix_rfl rfl).1 (str "seat")
  revert hlast
  decide +kernel

end ExecuteRules
end Udev
