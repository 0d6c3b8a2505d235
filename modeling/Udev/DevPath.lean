import Udev.Text

/-! Paths below /dev: the encoded name of a link, and the relative target of a
symlink, which leads from the directory of the link back to the node. -/
namespace Udev
namespace DevPath

open CString

def charHex (v : UInt8) : UInt8 := if v < 10 then chr '0'+v else chr 'a'+(v-10)

def charEncode (c : UInt8) : CString := [chr '\\',chr 'x',charHex (c >>> 4),charHex (c &&& 0xf)]

def pathEncode : CString → CString
  | [] => []
  | c::cs => (if c = chr '/' ∨ c = chr '\\' then charEncode c else [c]) ++ pathEncode cs

/-- The first loop of `path_relative`: the node from the last common slash on, and the
rest of the link. -/
def relativeScan : CString → CString → CString → CString × CString
  | f::fs, t::ts, p => if f = t then relativeScan fs ts (if f = chr '/' then f::fs else p) else (p,t::ts)
  | _, ts, p => (p,ts)

/-- What two paths have in common, up to its last slash. -/
def commonDir : CString → CString → CString
  | f::fs, t::ts =>
    if f ≠ t then [] else if f ≠ chr '/' ∧ commonDir fs ts = [] then [] else f::commonDir fs ts
  | _, _ => []

def pathRelative (node slink : CString) (size : ℕ) : Option CString :=
  if node = [] ∨ slink = [] then none
  else
    let r := relativeScan node slink node
    let s :=
      if charAt node 0 = charAt slink 0 then
        (List.replicate (r.2.count (chr '/')) (str "../")).flatten ++ r.1.drop 1
      else node
    if s = [] ∨ s.length ≥ size then none else some s

example : pathRelative (str "/path/1") (str "/path/1onew/2") 64 = some (str "../1") := by decide

def absPath (cs : List CString) : CString := cs.flatMap (chr '/'::·)

def Component (c : CString) : Prop := c ≠ [] ∧ chr '/' ∉ c ∧ c ≠ str "." ∧ c ≠ str ".."

instance (c : CString) : Decidable (Component c) := inferInstanceAs (Decidable (_ ∧ _))

/-- An absolute path as the kernel names it, without empty, "." or ".." components. -/
def Normal (path : CString) : Prop := ∃ cs, cs ≠ [] ∧ (∀ c ∈ cs, Component c) ∧ path = absPath cs

def enter (dir : List CString) (c : CString) : List CString :=
  if c = [] ∨ c = str "." then dir else if c = str ".." then dir.dropLast else dir ++ [c]

/-- What a path names where no directory on the way is a symlink. -/
def lookup (path : CString) : CString := absPath ((path.splitOn (chr '/')).foldl enter [])

/-- The path that a symlink leads to, where no directory on the way is a symlink. -/
def resolve (slink content : CString) : CString :=
  let dir := ((slink.splitOn (chr '/')).foldl enter []).dropLast
  absPath ((content.splitOn (chr '/')).foldl enter (if charAt content 0 = chr '/' then [] else dir))

theorem pathEncode_injective {a b : CString} (h : pathEncode a = pathEncode b) : a = b := by
  induction a generalizing b with
  | nil =>
    cases b with
    | nil => rfl
    | cons c cs =>
      simp only [pathEncode] at h
      split_ifs at h <;> simp [charEncode] at h
  | cons c cs ih =>
    cases b with
    | nil =>
      simp only [pathEncode] at h
      split_ifs at h <;> simp [charEncode] at h
    | cons d ds =>
      simp only [pathEncode] at h
      have hslash : charEncode (chr '/') = str "\\x2f" := by decide
      have hback : charEncode (chr '\\') = str "\\x5c" := by decide
      have key : c = d ∧ pathEncode cs = pathEncode ds := by
        split_ifs at h with hc hd hd
        · rcases hc with rfl | rfl <;> rcases hd with rfl | rfl
          · exact ⟨rfl,List.append_cancel_left h⟩
          · simp [hslash,hback,str] at h
          · simp [hslash,hback,str] at h
          · exact ⟨rfl,List.append_cancel_left h⟩
        · simp only [charEncode,List.cons_append,List.nil_append,List.cons.injEq] at h
          exact absurd (Or.inr h.1.symm) hd
        · simp only [charEncode,List.cons_append,List.nil_append,List.cons.injEq] at h
          exact absurd (Or.inr h.1) hc
        · simpa using h
      rw [key.1,ih key.2]

def Slash (s : CString) : Prop := s = [] ∨ ∃ t, s = chr '/'::t

theorem slash_absPath (cs : List CString) : Slash (absPath cs) := by
  cases cs with
  | nil => exact Or.inl rfl
  | cons c cs => exact Or.inr ⟨_,rfl⟩

theorem relativeScan_component {c d x y : CString} (hc : chr '/' ∉ c) (hd : chr '/' ∉ d) (hx : Slash x)
    (hy : Slash y) (p : CString) :
    c = d ∧ relativeScan (c ++ x) (d ++ y) p = relativeScan x y p ∨
      c ≠ d ∧ (relativeScan (c ++ x) (d ++ y) p).1 = p ∧
        (relativeScan (c ++ x) (d ++ y) p).2.count (chr '/') = y.count (chr '/') := by
  induction c generalizing d with
  | nil =>
    cases d with
    | nil => exact Or.inl ⟨rfl,rfl⟩
    | cons b d =>
      have hcount : (b::d ++ y).count (chr '/') = y.count (chr '/') := by
        rw [List.count_append,List.count_eq_zero_of_not_mem hd,Nat.zero_add]
      have hb : chr '/' ≠ b := fun h => hd (h ▸ List.mem_cons_self)
      refine Or.inr ⟨(List.cons_ne_nil _ _).symm,?_⟩
      rcases hx with rfl | ⟨t,rfl⟩
      · exact ⟨rfl,hcount⟩
      · simp only [List.nil_append,List.cons_append,relativeScan,if_neg hb]
        exact ⟨trivial,hcount⟩
  | cons a c ih =>
    have ha : chr '/' ≠ a := fun h => hc (h ▸ List.mem_cons_self)
    cases d with
    | nil =>
      refine Or.inr ⟨List.cons_ne_nil _ _,?_⟩
      rcases hy with rfl | ⟨t,rfl⟩
      · exact ⟨rfl,rfl⟩
      · simp only [List.nil_append,List.cons_append,relativeScan,if_neg ha.symm]
        exact ⟨trivial,trivial⟩
    | cons b d =>
      by_cases hab : a = b
      · subst hab
        have hrest := ih (d := d) (fun h => hc (List.mem_cons_of_mem _ h)) (fun h => hd (List.mem_cons_of_mem _ h))
        simp only [List.cons_append,relativeScan,if_true,if_neg ha.symm]
        simpa using hrest
      · have hcount : (b::d ++ y).count (chr '/') = y.count (chr '/') := by
          rw [List.count_append,List.count_eq_zero_of_not_mem hd,Nat.zero_add]
        refine Or.inr ⟨fun h => hab (List.cons.inj h).1,?_⟩
        simp only [List.cons_append,relativeScan,if_neg hab]
        exact ⟨trivial,hcount⟩

theorem commonDir_nil (s : CString) : commonDir s [] = [] := by
  cases s <;> rfl

theorem commonDir_component {c d x y : CString} (hc : chr '/' ∉ c) (hd : chr '/' ∉ d) (hx : Slash x) (hy : Slash y) :
    commonDir (c ++ x) (d ++ y) = if c = d ∧ commonDir x y ≠ [] then c ++ commonDir x y else [] := by
  induction c generalizing d with
  | nil =>
    cases d with
    | nil =>
      by_cases hdir : commonDir x y = []
      · rw [if_neg (fun h => h.2 hdir)]
        exact hdir
      · rw [if_pos ⟨rfl,hdir⟩]
        rfl
    | cons b d =>
      have hb : chr '/' ≠ b := fun h => hd (h ▸ List.mem_cons_self)
      rw [if_neg (fun h => List.cons_ne_nil _ _ h.1.symm)]
      rcases hx with rfl | ⟨t,rfl⟩
      · rfl
      · exact if_pos hb
  | cons a c ih =>
    have ha : chr '/' ≠ a := fun h => hc (h ▸ List.mem_cons_self)
    cases d with
    | nil =>
      rw [if_neg (fun h => List.cons_ne_nil _ _ h.1)]
      rcases hy with rfl | ⟨t,rfl⟩
      · rfl
      · exact if_pos ha.symm
    | cons b d =>
      have hrest := ih (d := d) (fun h => hc (List.mem_cons_of_mem _ h)) (fun h => hd (List.mem_cons_of_mem _ h))
      by_cases hab : a = b
      · subst hab
        rw [List.cons_append,List.cons_append,commonDir,if_neg (not_not.mpr rfl),hrest]
        by_cases hboth : c = d ∧ commonDir x y ≠ []
        · have hne : c ++ commonDir x y ≠ [] := List.append_ne_nil_of_right_ne_nil _ hboth.2
          rw [if_pos hboth,if_neg (fun h => hne h.2),if_pos ⟨congrArg (a::·) hboth.1,hboth.2⟩]
          rfl
        · rw [if_neg hboth,if_pos ⟨ha.symm,rfl⟩,if_neg (fun h => hboth ⟨(List.cons.inj h.1).2,h.2⟩)]
      · rw [if_neg (fun h => hab (List.cons.inj h.1).1)]
        exact if_pos hab

theorem count_absPath {cs : List CString} (h : ∀ c ∈ cs, chr '/' ∉ c) :
    (absPath cs).count (chr '/') = cs.length := by
  induction cs with
  | nil => rfl
  | cons c cs ih =>
    have hc : c.count (chr '/') = 0 := List.count_eq_zero_of_not_mem (h c List.mem_cons_self)
    have hcs := ih fun x hx => h x (List.mem_cons_of_mem _ hx)
    simp only [absPath,List.flatMap_cons,List.count_append,List.count_cons_self,hc] at hcs ⊢
    rw [hcs,List.length_cons]
    omega

/-- The scan ends in the first component that is not common to both paths, or in the
last one of the shorter path. The components in front are the common directory. -/
theorem relativeScan_absPath {c d : CString} {cs ds : List CString} (hc : ∀ x ∈ c::cs, chr '/' ∉ x)
    (hd : ∀ x ∈ d::ds, chr '/' ∉ x) (p : CString) :
    ∃ pre c' cs' d' ds', c::cs = pre ++ c'::cs' ∧ d::ds = pre ++ d'::ds' ∧
      (relativeScan (absPath (c::cs)) (absPath (d::ds)) p).1 = chr '/'::(c' ++ absPath cs') ∧
      (relativeScan (absPath (c::cs)) (absPath (d::ds)) p).2.count (chr '/') = ds'.length ∧
      commonDir (absPath (c::cs)) (absPath (d::ds)) = absPath pre ++ [chr '/'] := by
  have hc₁ := hc c List.mem_cons_self
  have hd₁ := hd d List.mem_cons_self
  have hd₂ : ∀ x ∈ ds, chr '/' ∉ x := fun x hx => hd x (List.mem_cons_of_mem _ hx)
  have hscan : relativeScan (absPath (c::cs)) (absPath (d::ds)) p =
      relativeScan (c ++ absPath cs) (d ++ absPath ds) (chr '/'::(c ++ absPath cs)) := rfl
  have hdir : commonDir (absPath (c::cs)) (absPath (d::ds)) =
      chr '/'::commonDir (c ++ absPath cs) (d ++ absPath ds) := by
    show commonDir (chr '/'::(c ++ absPath cs)) (chr '/'::(d ++ absPath ds)) = _
    rw [commonDir,if_neg (not_not.mpr rfl),if_neg (fun h => h.1 rfl)]
  have hroot : ∀ x y : List CString, commonDir (absPath x) (absPath y) = [] ∨ c ≠ d →
      Slash (absPath x) → Slash (absPath y) →
      chr '/'::commonDir (c ++ absPath x) (d ++ absPath y) = absPath [] ++ [chr '/'] := by
    intro x y hor hx hy
    rw [commonDir_component hc₁ hd₁ hx hy,if_neg]
    · rfl
    · rintro ⟨heq,hne⟩
      exact hor.elim hne (fun h => h heq)
  rw [hscan,hdir]
  rcases relativeScan_component hc₁ hd₁ (slash_absPath cs) (slash_absPath ds) (chr '/'::(c ++ absPath cs)) with
    ⟨rfl,heq⟩ | ⟨hne,hp,hcount⟩
  · rw [heq]
    cases cs with
    | nil =>
      have hend := hroot [] ds (Or.inl (by cases ds <;> rfl)) (slash_absPath _) (slash_absPath _)
      exact ⟨[],c,[],c,ds,rfl,rfl,rfl,count_absPath hd₂,hend⟩
    | cons c₂ cs =>
      cases ds with
      | nil =>
        have hend := hroot (c₂::cs) [] (Or.inl (commonDir_nil _)) (slash_absPath _) (slash_absPath _)
        exact ⟨[],c,c₂::cs,c,[],rfl,rfl,rfl,rfl,hend⟩
      | cons d₂ ds =>
        obtain ⟨pre,c',cs',d',ds',hcs,hds,hp,hcount,hpre⟩ :=
          relativeScan_absPath (fun x hx => hc x (List.mem_cons_of_mem _ hx)) hd₂ (chr '/'::(c ++ absPath (c₂::cs)))
        refine ⟨c::pre,c',cs',d',ds',congrArg (c::·) hcs,congrArg (c::·) hds,hp,hcount,?_⟩
        have hne : absPath pre ++ [chr '/'] ≠ [] := List.append_ne_nil_of_right_ne_nil _ (List.cons_ne_nil _ _)
        rw [commonDir_component hc₁ hc₁ (slash_absPath _) (slash_absPath _),hpre,if_pos ⟨rfl,hne⟩]
        show chr '/'::(c ++ (absPath pre ++ [chr '/'])) = chr '/'::c ++ absPath pre ++ [chr '/']
        rw [List.cons_append,List.cons_append,List.append_assoc]
  · have hend := hroot cs ds (Or.inr hne) (slash_absPath _) (slash_absPath _)
    exact ⟨[],c,cs,d,ds,rfl,rfl,hp,hcount.trans (count_absPath hd₂),hend⟩

theorem intercalate_absPath (c : CString) (cs : List CString) :
    [chr '/'].intercalate (c::cs) = c ++ absPath cs := by
  induction cs generalizing c with
  | nil => simp [absPath]
  | cons d cs ih => rw [List.intercalate_cons_cons,ih d]; simp [absPath]

theorem intercalate_replicate (k : ℕ) (c : CString) (cs : List CString) :
    [chr '/'].intercalate (List.replicate k (str "..") ++ c::cs) =
      (List.replicate k (str "../")).flatten ++ (c ++ absPath cs) := by
  induction k with
  | zero => exact intercalate_absPath c cs
  | succ k ih =>
    obtain ⟨x,xs,hx⟩ : ∃ x xs, List.replicate k (str "..") ++ c::cs = x::xs := by
      cases k with
      | zero => exact ⟨c,cs,rfl⟩
      | succ k => exact ⟨_,_,rfl⟩
    rw [List.replicate_succ,List.cons_append,hx,List.intercalate_cons_cons,← hx,ih,List.replicate_succ,
      List.flatten_cons]
    have hdots : str "../" = str ".." ++ [chr '/'] := rfl
    rw [hdots]
    simp only [List.append_assoc]

theorem foldl_enter_filter {dir cs : List CString} (h : ∀ c ∈ cs, c = [] ∨ Component c) :
    cs.foldl enter dir = dir ++ cs.filter (· ≠ []) := by
  induction cs generalizing dir with
  | nil => exact (List.append_nil dir).symm
  | cons c cs ih =>
    have hrest : ∀ x ∈ cs, x = [] ∨ Component x := fun x hx => h x (List.mem_cons_of_mem _ hx)
    rw [List.foldl_cons,ih hrest]
    rcases h c List.mem_cons_self with rfl | ⟨hne,-,hdot,hdots⟩
    · rfl
    · have henter : enter dir c = dir ++ [c] := by
        rw [enter,if_neg (not_or.mpr ⟨hne,hdot⟩),if_neg hdots]
      have hfilter : (c::cs).filter (· ≠ []) = c::cs.filter (· ≠ []) := List.filter_cons_of_pos (decide_eq_true hne)
      rw [henter,hfilter,List.append_assoc,List.singleton_append]

theorem slash_not_mem {c : CString} (h : c = [] ∨ Component c) : chr '/' ∉ c := by
  rcases h with rfl | h
  · exact List.not_mem_nil
  · exact h.2.1

theorem filter_components {cs : List CString} (h : ∀ c ∈ cs, Component c) : cs.filter (· ≠ []) = cs :=
  List.filter_eq_self.mpr fun c hc => decide_eq_true (h c hc).1

theorem foldl_enter_dots (dir : List CString) (n : ℕ) :
    (List.replicate n (str "..")).foldl enter dir = dir.take (dir.length-n) := by
  induction n generalizing dir with
  | zero => exact List.take_length.symm
  | succ n ih =>
    have henter : enter dir (str "..") = dir.take (dir.length-1) := List.dropLast_eq_take
    have hsub : dir.length-1-n = dir.length-(n+1) := by omega
    rw [List.replicate_succ,List.foldl_cons,henter,ih,List.length_take,List.take_take,
      Nat.min_eq_left (Nat.sub_le _ 1),hsub,Nat.min_eq_left (by omega)]

theorem splitOn_absPath {cs : List CString} (h : ∀ c ∈ cs, chr '/' ∉ c) :
    (absPath cs).splitOn (chr '/') = []::cs := by
  have habs : absPath cs = [chr '/'].intercalate ([]::cs) := (intercalate_absPath [] cs).symm
  rw [habs,List.splitOn_intercalate _ (by simpa using h) (by simp)]

theorem lookup_normal {path : CString} (h : Normal path) : lookup path = path := by
  obtain ⟨cs,-,hcs,rfl⟩ := h
  have hroot : enter [] [] = [] := rfl
  rw [lookup,splitOn_absPath fun c hc => (hcs c hc).2.1,List.foldl_cons,hroot,
    foldl_enter_filter fun c hc => Or.inr (hcs c hc),filter_components hcs,List.nil_append]

theorem splitOn_append {b : CString} (hb : chr '/' ∉ b) (a : CString) :
    ∃ dir last, (a ++ b).splitOn (chr '/') = dir ++ [last ++ b] := by
  induction a with
  | nil => exact ⟨[],[],List.splitOn_eq_singleton hb⟩
  | cons c a ih =>
    obtain ⟨dir,last,ih⟩ := ih
    rw [List.cons_append,List.splitOn,List.splitOnP_cons_eq_if_modifyHead]
    rw [List.splitOn] at ih
    rw [ih]
    split_ifs
    · exact ⟨[]::dir,last,rfl⟩
    · cases dir with
      | nil => exact ⟨[],c::last,rfl⟩
      | cons d dir => exact ⟨(c::d)::dir,last,rfl⟩

theorem lookup_append (a : CString) {b : CString} (hb : chr '/' ∉ b) (hlen : 2 < b.length) :
    b <:+ lookup (a ++ b) := by
  obtain ⟨dir,last,hsplit⟩ := splitOn_append hb a
  have hlong : 2 < (last ++ b).length := by
    rw [List.length_append]
    omega
  have hne : ∀ s : CString, s.length ≤ 2 → last ++ b ≠ s := by
    rintro s hs rfl
    omega
  have henter : ∀ cs, enter cs (last ++ b) = cs ++ [last ++ b] := by
    intro cs
    rw [enter,if_neg (not_or.mpr ⟨hne _ (by decide),hne _ (by decide)⟩),if_neg (hne _ (by decide))]
  rw [lookup,hsplit,List.foldl_append,List.foldl_cons,List.foldl_nil,henter]
  refine ⟨absPath (dir.foldl enter []) ++ chr '/'::last,?_⟩
  simp [absPath]

/-- The steps up end in the common part exactly where they are as many as the directories behind it, or where
the common part is the root. -/
theorem take_dropLast_iff {pre rest : List CString} {n : ℕ} (h : rest.length ≤ n+1) :
    (pre ++ rest).dropLast.take ((pre ++ rest).dropLast.length-n) = pre ↔ pre = [] ∨ rest.length = n+1 := by
  have hlen : (pre ++ rest).length = pre.length+rest.length := List.length_append
  rw [List.dropLast_eq_take,List.take_take,List.length_take,hlen]
  constructor
  · intro heq
    have htake := congrArg List.length heq
    rw [List.length_take,hlen] at htake
    rcases pre with - | ⟨x,pre⟩
    · exact Or.inl rfl
    · rw [List.length_cons] at htake
      omega
  · rintro (rfl | hfull)
    · rw [List.length_nil,Nat.zero_add]
      have hzero : min (min (rest.length-1) rest.length-n) (rest.length-1) = 0 := by omega
      rw [hzero,List.take_zero]
    · have hpre : min (min (pre.length+rest.length-1) (pre.length+rest.length)-n) (pre.length+rest.length-1) =
          pre.length := by omega
      rw [hpre,List.take_left]

/-- The way back from the directory of a link to a node with the same first components. -/
def backPath (n : ℕ) (c : CString) (cs : List CString) : CString :=
  (List.replicate n (str "../")).flatten ++ (c ++ absPath cs)

theorem pathRelative_absPath {c d : CString} {cs ds : List CString} (hc : ∀ x ∈ c::cs, chr '/' ∉ x)
    (hd : ∀ x ∈ d::ds, chr '/' ∉ x) :
    ∃ pre c' cs' d' ds', c::cs = pre ++ c'::cs' ∧ d::ds = pre ++ d'::ds' ∧
      commonDir (absPath (c::cs)) (absPath (d::ds)) = absPath pre ++ [chr '/'] ∧
      ∀ size, pathRelative (absPath (c::cs)) (absPath (d::ds)) size =
        if backPath ds'.length c' cs' = [] ∨ (backPath ds'.length c' cs').length ≥ size then none
        else some (backPath ds'.length c' cs') := by
  obtain ⟨pre,c',cs',d',ds',hcs,hds,hp,hcount,hdir⟩ := relativeScan_absPath hc hd (absPath (c::cs))
  refine ⟨pre,c',cs',d',ds',hcs,hds,hdir,fun size => ?_⟩
  have hfirst : charAt (absPath (c::cs)) 0 = charAt (absPath (d::ds)) 0 := rfl
  have hne : ¬(absPath (c::cs) = [] ∨ absPath (d::ds) = []) :=
    not_or.mpr ⟨List.cons_ne_nil _ _,List.cons_ne_nil _ _⟩
  have hback : (List.replicate ds'.length (str "../")).flatten ++ (chr '/'::(c' ++ absPath cs')).drop 1 =
      backPath ds'.length c' cs' := rfl
  rw [pathRelative,if_neg hne]
  simp only [hfirst,if_true,hp,hcount,hback]

theorem resolve_backPath {pre ds cs : List CString} {d c : CString} (hpre : ∀ x ∈ pre, Component x)
    (hd : ∀ x ∈ d::ds, x = [] ∨ Component x) (hc : ∀ x ∈ c::cs, x = [] ∨ Component x)
    (hne : c = [] → ds = [] → False) :
    resolve (absPath (pre ++ d::ds)) (backPath ds.length c cs) =
      absPath ((pre ++ (d::ds).filter (· ≠ [])).dropLast.take
        ((pre ++ (d::ds).filter (· ≠ [])).dropLast.length-ds.length) ++ (c::cs).filter (· ≠ [])) := by
  have hslink : ∀ x ∈ pre ++ d::ds, x = [] ∨ Component x := by
    intro x hx
    rcases List.mem_append.mp hx with hx | hx
    · exact Or.inr (hpre x hx)
    · exact hd x hx
  have hparts : ∀ x ∈ List.replicate ds.length (str "..") ++ c::cs, chr '/' ∉ x := by
    intro x hx
    rcases List.mem_append.mp hx with hx | hx
    · rw [(List.mem_replicate.mp hx).2]
      decide
    · exact slash_not_mem (hc x hx)
  have hsplit : (backPath ds.length c cs).splitOn (chr '/') = List.replicate ds.length (str "..") ++ c::cs := by
    rw [backPath,← intercalate_replicate]
    exact List.splitOn_intercalate _ hparts (List.append_ne_nil_of_right_ne_nil _ (List.cons_ne_nil _ _))
  have hrelative : charAt (backPath ds.length c cs) 0 ≠ chr '/' := by
    cases ds with
    | nil =>
      cases c with
      | nil => exact absurd rfl (hne rfl)
      | cons b c => exact fun h => slash_not_mem (hc _ List.mem_cons_self) (h ▸ List.mem_cons_self)
    | cons x ds => exact (by decide : chr '.' ≠ chr '/')
  have hroot : enter [] [] = [] := rfl
  have hdir : ((absPath (pre ++ d::ds)).splitOn (chr '/')).foldl enter [] = pre ++ (d::ds).filter (· ≠ []) := by
    rw [splitOn_absPath fun x hx => slash_not_mem (hslink x hx),List.foldl_cons,hroot,foldl_enter_filter hslink,
      List.nil_append,List.filter_append,filter_components hpre]
  rw [resolve,hsplit,if_neg hrelative,hdir,List.foldl_append,foldl_enter_dots,foldl_enter_filter hc]

theorem resolve_pathRelative {node slink content : CString} {size : ℕ} (hnode : Normal node)
    (hslink : Normal slink) (h : pathRelative node slink size = some content) :
    resolve slink content = node := by
  obtain ⟨cs,hcs,hcomp,rfl⟩ := hnode
  obtain ⟨ds,hds,hdcomp,rfl⟩ := hslink
  obtain ⟨c,cs,rfl⟩ := List.exists_cons_of_ne_nil hcs
  obtain ⟨d,ds,rfl⟩ := List.exists_cons_of_ne_nil hds
  obtain ⟨pre,c',cs',d',ds',hc,hd,-,hrel⟩ :=
    pathRelative_absPath (fun x hx => (hcomp x hx).2.1) (fun x hx => (hdcomp x hx).2.1)
  rw [hrel size] at h
  split_ifs at h
  have hcontent := Option.some.inj h
  have hrest : ∀ x ∈ c'::cs', Component x := fun x hx => hcomp x (hc ▸ List.mem_append_right _ hx)
  have hlink : ∀ x ∈ d'::ds', Component x := fun x hx => hdcomp x (hd ▸ List.mem_append_right _ hx)
  have hpre : ∀ x ∈ pre, Component x := fun x hx => hcomp x (hc ▸ List.mem_append_left _ hx)
  rw [← hcontent,hd,resolve_backPath hpre (fun x hx => Or.inr (hlink x hx)) (fun x hx => Or.inr (hrest x hx))
    (fun h => absurd h (hrest c' List.mem_cons_self).1),filter_components hlink,filter_components hrest,
    (take_dropLast_iff (Nat.le_of_eq (List.length_cons ..))).mpr (Or.inr (List.length_cons ..)),hc]

end DevPath
end Udev
