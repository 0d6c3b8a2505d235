import Udev.Interpreter
import Udev.PathEncode
import Udev.StringChain

/-! The buffers of `link_update`. The encoded name is written whatever its length; the names
made from it are cut off; the path of the entry is copied again, as far as its directories can be
made. -/
namespace Udev
namespace LinkBuffers

open CString Text DevPath StringChain

inductive Mkdir
  | made | isDir | noParent | failed
  deriving DecidableEq, Repr

/-- The loop of `path_mkdir` over the rest of the path, with what was copied to `dir`, whether the first
directory is still to come, and the places that were written. -/
def mkdirLoop (pmkdir : CString → Mkdir) : CString → CString → Bool → List ℕ → List ℕ × ℤ
  | [], _, _, w => (w,0)
  | c::path, dir, first, w =>
    let w := w ++ [dir.length]
    let dir := dir ++ [c]
    if charAt path 0 = chr '/' then
      let w := w ++ [dir.length]
      if first then mkdirLoop pmkdir path dir false w
      else if pmkdir dir = .failed then (w,-1)
      else mkdirLoop pmkdir path dir false w
    else mkdirLoop pmkdir path dir first w

/-- `path_mkdir`: the places of `dir` that are written, and the result. -/
def pathMkdir (pmkdir : CString → Mkdir) (path : CString) : List ℕ × ℤ := mkdirLoop pmkdir path [] true []

structure Writes where
  nameEnc : List ℕ
  dirname : List ℤ
  filename : List ℤ
  dir : List ℕ

/-- `link_update` on its buffers, with what was in them. To add a link, `path_create` is called in
one round or more, each of which has its own `mkdir`. -/
def linkUpdateWrites (mem : Memory) (memDir memFile : ℤ → UInt8) (slink devnum : CString)
    (rounds : List (CString → Mkdir)) : Writes :=
  let enc := (pathEncodeRun mem (slink.drop 4) 1024).1
  let nameEnc := enc.mem.text enc.pos
  let dirname := strscpyl utilPathSize [str "/run/udev/links/",nameEnc]
  let filename := strscpyl (utilPathSize*2) [dirname,str "/",devnum]
  { nameEnc := enc.writes
    dirname := (strpcpyl ⟨memDir,0,utilPathSize,[]⟩ (str "/run/udev/links/") [nameEnc]).writes
    filename := (strpcpyl ⟨memFile,0,utilPathSize*2,[]⟩ dirname [str "/",devnum]).writes
    dir := rounds.flatMap fun pmkdir => (pathMkdir pmkdir filename).1 }

def Inside (w : Writes) : Prop :=
  (∀ i ∈ w.nameEnc, i < 1024) ∧ (∀ i ∈ w.dirname, 0 ≤ i ∧ i < 1024) ∧ (∀ i ∈ w.filename, 0 ≤ i ∧ i < 2048) ∧
  ∀ i ∈ w.dir, i < 1024

def directories : CString → CString → List CString
  | _, [] => []
  | dir, c::path =>
    if charAt path 0 = chr '/' then (dir ++ [c])::directories (dir ++ [c]) path else directories (dir ++ [c]) path

def entryPath (slink devnum : CString) : CString :=
  strscpyl (utilPathSize*2) [Symlinks.linkDir slink,str "/",devnum]

/-- The encoding fits, and in each round the path of the entry fits, or a directory in front of its place
1024 cannot be made. The first directory is taken to be there. -/
def Fits (slink devnum : CString) (rounds : List (CString → Mkdir)) : Prop :=
  encodedLength (slink.drop 4) < 1024 ∧ ∀ pmkdir ∈ rounds,
    (entryPath slink devnum).length ≤ 1024 ∨
    ∃ d ∈ (directories [] (entryPath slink devnum)).drop 1, d.length < 1024 ∧ pmkdir d = .failed

variable {pmkdir : CString → Mkdir} {path dir : CString} {first : Bool} {w : List ℕ}

theorem writes_mkdirLoop (path dir : CString) (first : Bool) (w : List ℕ) :
    w ⊆ (mkdirLoop pmkdir path dir first w).1 := by
  induction path generalizing dir first w with
  | nil => exact fun _ h => h
  | cons c path ih =>
    intro i hi
    have hone : i ∈ w ++ [dir.length] := List.mem_append_left _ hi
    have htwo : i ∈ w ++ [dir.length] ++ [(dir ++ [c]).length] := List.mem_append_left _ hone
    simp only [mkdirLoop]
    split_ifs
    · exact ih _ _ _ htwo
    · exact htwo
    · exact ih _ _ _ htwo
    · exact ih _ _ _ hone

theorem directories_length {d : CString} (path dir : CString) (h : d ∈ directories dir path) : dir.length < d.length := by
  induction path generalizing dir with
  | nil => cases h
  | cons c path ih =>
    have hnext : (dir ++ [c]).length = dir.length+1 := by rw [List.length_append,List.length_singleton]
    rw [directories] at h
    split_ifs at h
    · rcases List.mem_cons.mp h with rfl | h
      · omega
      · have hlt := ih _ h
        omega
    · have hlt := ih _ h
      omega

theorem length_mem_mkdirLoop (c : UInt8) (path dir : CString) (first : Bool) (w : List ℕ) :
    dir.length ∈ (mkdirLoop pmkdir (c::path) dir first w).1 := by
  have hmem : dir.length ∈ w ++ [dir.length] := List.mem_append_right _ (List.mem_singleton_self _)
  have hmem' : dir.length ∈ w ++ [dir.length] ++ [(dir ++ [c]).length] := List.mem_append_left _ hmem
  simp only [mkdirLoop]
  split_ifs
  · exact writes_mkdirLoop _ _ _ _ hmem'
  · exact hmem'
  · exact writes_mkdirLoop _ _ _ _ hmem'
  · exact writes_mkdirLoop _ _ _ _ hmem

theorem next_mem_mkdirLoop {c : UInt8} (hslash : charAt path 0 = chr '/') (dir : CString) (first : Bool) (w : List ℕ) :
    (dir ++ [c]).length ∈ (mkdirLoop pmkdir (c::path) dir first w).1 := by
  have hmem : (dir ++ [c]).length ∈ w ++ [dir.length] ++ [(dir ++ [c]).length] :=
    List.mem_append_right _ (List.mem_singleton_self _)
  simp only [mkdirLoop]
  rw [if_pos hslash]
  split_ifs
  · exact writes_mkdirLoop _ _ _ _ hmem
  · exact hmem
  · exact writes_mkdirLoop _ _ _ _ hmem

/-- From inside, the loop stays inside exactly where the rest fits, or a directory inside cannot be made. -/
theorem mkdirLoop_inside_iff (hdir : dir.length ≤ 1024) (hw : ∀ i ∈ w, i < 1024) :
    (∀ i ∈ (mkdirLoop pmkdir path dir first w).1, i < 1024) ↔ dir.length+path.length ≤ 1024 ∨
      ∃ d ∈ (directories dir path).drop (if first then 1 else 0), d.length < 1024 ∧ pmkdir d = .failed := by
  induction path generalizing dir first w with
  | nil => exact iff_of_true hw (Or.inl hdir)
  | cons c path ih =>
    have hnext : (dir ++ [c]).length = dir.length+1 := by rw [List.length_append,List.length_singleton]
    have hlate : 1024 ≤ dir.length+1 →
        ¬∃ d ∈ (directories dir (c::path)).drop (if first then 1 else 0), d.length < 1024 ∧ pmkdir d = .failed := by
      rintro hfull ⟨d,hd,hlt,-⟩
      have h := directories_length _ _ (List.mem_of_mem_drop hd)
      omega
    rw [List.length_cons]
    by_cases hfull : dir.length = 1024
    · refine iff_of_false (fun hall => ?_) (not_or.mpr ⟨by omega,hlate (by omega)⟩)
      exact absurd (hall _ (length_mem_mkdirLoop c path dir first w)) (by omega)
    · have hin := List.forall_mem_append.mpr ⟨hw,List.forall_mem_singleton.mpr (by omega : dir.length < 1024)⟩
      by_cases hslash : charAt path 0 = chr '/'
      · have hpath : 0 < path.length := by
          cases path with
          | nil => exact absurd hslash (by decide)
          | cons x path => exact Nat.succ_pos _
        by_cases hend : dir.length+1 = 1024
        · refine iff_of_false (fun hall => ?_) (not_or.mpr ⟨by omega,hlate (by omega)⟩)
          exact absurd (hall _ (next_mem_mkdirLoop hslash dir first w)) (by omega)
        · have hin := List.forall_mem_append.mpr ⟨hin,List.forall_mem_singleton.mpr (by omega : (dir ++ [c]).length < 1024)⟩
          have hrest := fun first => @ih (dir ++ [c]) first _ (by omega) hin
          have hsum : (dir ++ [c]).length+path.length = dir.length+(path.length+1) := by omega
          simp only [mkdirLoop]
          rw [if_pos hslash,directories,if_pos hslash,← hsum]
          cases first with
          | true => exact hrest false
          | false =>
            by_cases hfail : pmkdir (dir ++ [c]) = .failed
            · rw [if_neg (by decide),if_pos hfail]
              exact iff_of_true hin (Or.inr ⟨dir ++ [c],List.mem_cons_self,by omega,hfail⟩)
            · rw [if_neg (by decide),if_neg hfail,hrest false]
              refine or_congr Iff.rfl ?_
              constructor
              · rintro ⟨d,hd,h⟩
                exact ⟨d,List.mem_cons_of_mem _ hd,h⟩
              · rintro ⟨d,hd,hlt,h⟩
                rcases List.mem_cons.mp hd with rfl | hd
                · exact absurd h hfail
                · exact ⟨d,hd,hlt,h⟩
      · have hsum : (dir ++ [c]).length+path.length = dir.length+(path.length+1) := by omega
        simp only [mkdirLoop]
        rw [if_neg hslash,directories,if_neg hslash,← hsum]
        exact ih (by omega) hin

theorem pathMkdir_inside_iff (pmkdir : CString → Mkdir) (path : CString) :
    (∀ i ∈ (pathMkdir pmkdir path).1, i < 1024) ↔ path.length ≤ 1024 ∨
      ∃ d ∈ (directories [] path).drop 1, d.length < 1024 ∧ pmkdir d = .failed := by
  have h := @mkdirLoop_inside_iff pmkdir path [] true []
    (Nat.zero_le _) (fun i hi => absurd hi List.not_mem_nil)
  rw [List.length_nil,Nat.zero_add] at h
  exact h

theorem strpcpyl_inside {size : ℕ} (hsize : 0 < size) (mem : ℤ → UInt8) (src : CString) (srcs : List CString) :
    ∀ i ∈ (strpcpyl ⟨mem,0,size,[]⟩ src srcs).writes, 0 ≤ i ∧ i < size := by
  intro i hi
  have h := ((keeps_start (b := 0) mem size).strpcpyl hsize src srcs).1.inside i hi
  omega

theorem nameEnc_eq (mem : Memory) {src : CString} (hnul : 0 ∉ src) :
    let enc := (pathEncodeRun mem src 1024).1
    enc.mem.text enc.pos = pathEncode src := by
  obtain ⟨hmem,hend,-⟩ := pathEncodeRun_spec mem src 1024
  have hpos : (pathEncodeRun mem src 1024).1.pos = (pathEncode src).length+1 := by
    have hloop := encodeLoop_filled src (e := ⟨Memory.Cursor.start mem,1024⟩) (Memory.Cursor.filled_start mem)
    exact congrArg (·+1) hloop.pos
  exact hmem.text hend (nul_pathEncode hnul) (by rw [hpos]; exact Nat.lt_succ_self _)

/-- `link_update` writes inside of its buffers exactly where the encoded name fits and no path of an entry
is copied over the end of `dir`. -/
theorem link_update_inside_iff {slink : CString} (hnul : 0 ∉ slink) (devnum : CString)
    (rounds : List (CString → Mkdir)) (mem : Memory) (memDir memFile : ℤ → UInt8) :
    Inside (linkUpdateWrites mem memDir memFile slink devnum rounds) ↔ Fits slink devnum rounds := by
  have hdrop : 0 ∉ slink.drop 4 := fun h => hnul (List.mem_of_mem_drop h)
  have hname := nameEnc_eq mem hdrop
  have hwrites : (∀ i ∈ (pathEncodeRun mem (slink.drop 4) 1024).1.writes, i < 1024) ↔
      encodedLength (slink.drop 4) < 1024 := by
    rw [(pathEncodeRun_spec mem (slink.drop 4) 1024).2.2]
    constructor
    · intro h
      exact h _ (List.mem_range.mpr (Nat.lt_succ_self _))
    · intro h i hi
      have hi := List.mem_range.mp hi
      omega
  simp only [Inside,Fits,linkUpdateWrites] at hname ⊢
  rw [hwrites,hname]
  refine and_congr Iff.rfl ?_
  have hdirname := @strpcpyl_inside utilPathSize (by decide) memDir (str "/run/udev/links/")
    [pathEncode (slink.drop 4)]
  have hfilename := @strpcpyl_inside (utilPathSize*2) (by decide) memFile (Symlinks.linkDir slink)
    [str "/",devnum]
  refine (and_iff_right hdirname).trans ((and_iff_right hfilename).trans ?_)
  constructor
  · intro h pmkdir hr
    rw [← pathMkdir_inside_iff]
    intro i hi
    exact h i (List.mem_flatMap.mpr ⟨pmkdir,hr,hi⟩)
  · intro h i hi
    obtain ⟨pmkdir,hr,hi⟩ := List.mem_flatMap.mp hi
    exact (pathMkdir_inside_iff pmkdir _).mpr (h pmkdir hr) i hi

theorem link_update_inside_iff_cdrom :
    Inside (linkUpdateWrites (fun _ => 0) (fun _ => 0) (fun _ => 0) (str "/dev/cdrom") (str "b11:0") [fun _ => .made]) ↔
      Fits (str "/dev/cdrom") (str "b11:0") [fun _ => .made] :=
  link_update_inside_iff (by decide) _ _ (fun _ => 0) (fun _ => 0) (fun _ => 0)

/-- A value of 601 characters of which 300 are slashes. -/
def deepLink : CString := (List.replicate 300 (str "a/")).flatten ++ str "a"

theorem deepLink_encoded : 1024 ≤ encodedLength (chr '/'::deepLink) := by decide +kernel

theorem not_inside_of_encoded {slink : CString} (hlen : 1024 ≤ encodedLength (slink.drop 4)) (mem : Memory)
    (memDir memFile : ℤ → UInt8) (devnum : CString) (rounds : List (CString → Mkdir)) :
    ¬Inside (linkUpdateWrites mem memDir memFile slink devnum rounds) := by
  intro h
  have hmem : encodedLength (slink.drop 4) ∈ (linkUpdateWrites mem memDir memFile slink devnum rounds).nameEnc := by
    show _ ∈ (pathEncodeRun mem (slink.drop 4) 1024).1.writes
    rw [(pathEncodeRun_spec mem (slink.drop 4) 1024).2.2]
    exact List.mem_range.mpr (Nat.lt_succ_self _)
  exact Nat.not_lt_of_le hlen (h.1 _ hmem)

/-- It gives a link of 606 bytes, of which the encoding is written behind `name_enc`. -/
theorem link_update_outside : Rules.linkNames 602 deepLink = [deepLink] ∧
    strscpyl utilPathSize [str "/dev/",deepLink] = str "/dev/" ++ deepLink ∧
    ∀ mem memDir memFile devnum rounds,
      ¬Inside (linkUpdateWrites mem memDir memFile (str "/dev/" ++ deepLink) devnum rounds) := by
  have hlength : deepLink.length = 601 := by decide +kernel
  have hspace : chr ' ' ∉ deepLink := by decide +kernel
  have hencoded := deepLink_encoded
  generalize deepLink = link at *
  constructor
  · rw [Rules.linkNames,strchr_eq_none hspace]
    refine if_neg ?_
    intro h
    rw [List.length_eq_zero_iff.mpr h] at hlength
    exact absurd hlength (by decide)
  constructor
  · have hflat : [str "/dev/",link].flatten = str "/dev/" ++ link := by
      rw [List.flatten_cons,List.flatten_singleton]
    rw [strscpyl_fits ?_,hflat]
    rw [hflat,List.length_append,hlength]
    decide
  · intro mem memDir memFile devnum rounds
    have hdrop : (str "/dev/" ++ link).drop 4 = chr '/'::link := rfl
    exact not_inside_of_encoded (hdrop ▸ hencoded) mem memDir memFile devnum rounds

end LinkBuffers
end Udev
