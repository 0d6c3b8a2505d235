import Mathlib.Data.List.Nodup
import Udev.Checkout

/-! Sequences of `collect` runs on one checkpoint file: while the file is read back exactly,
it holds the IDs that are added, in the order of their addition. -/
namespace Udev
namespace Collect

open scoped List

def afterRun (added : List CString) (r : Run) : List CString :=
  if r.prune then added.filter (· ≠ r.us) else if r.us ∈ added then added else added ++ [r.us]

def added (runs : List Run) : List CString := runs.foldl afterRun []

theorem added_concat (pre : List Run) (r : Run) : added (pre ++ [r]) = afterRun (added pre) r := by
  simp [added]

structure Members (idlist ws : List CString) : Prop where
  nodup : ws.Nodup
  mem : ∀ w ∈ ws, w ∈ idlist

theorem Members.afterRun {idlist ws : List CString} (h : Members idlist ws) {r : Run} (hr : r.us ∈ idlist) :
    Members idlist (afterRun ws r) := by
  rw [Collect.afterRun]
  split_ifs with hprune hus
  · exact ⟨h.nodup.filter _,fun w hw => h.mem w (List.mem_filter.mp hw).1⟩
  · exact h
  · refine ⟨h.nodup.append (List.nodup_singleton _) (by simpa using hus),?_⟩
    intro w hw
    rcases List.mem_append.mp hw with hw | hw
    · exact h.mem w hw
    · exact List.mem_singleton.mp hw ▸ hr

theorem members_added {idlist : List CString} {runs : List Run} (h : ∀ r ∈ runs, r.us ∈ idlist) :
    Members idlist (added runs) := by
  induction runs using List.reverseRecOn with
  | nil => exact ⟨List.nodup_nil,by simp [added]⟩
  | append_singleton runs r ih =>
    rw [added_concat]
    exact (ih fun r' hr' => h r' (by simp [hr'])).afterRun (h r (by simp))

section Main

variable {idlist ws done : List CString} {id us : CString} {bunch : List Mate}

theorem invite_of_not_mem (h : id ∉ bunch.map (·.name)) : invite id bunch = bunch := by
  induction bunch with
  | nil => rfl
  | cons him rest ih =>
    rw [List.map_cons,List.mem_cons,not_or] at h
    rw [invite,List.map_cons,if_neg (Ne.symm h.1)]
    exact congrArg (him::·) (ih h.2)

theorem confirm_eq (h : (bunch.map (·.name)).Nodup) :
    confirm id bunch = if id ∈ bunch.map (·.name) then some (invite id bunch) else none := by
  induction bunch with
  | nil => rfl
  | cons him rest ih =>
    rw [List.map_cons,List.nodup_cons] at h
    rw [confirm,ih h.2]
    by_cases hrest : id ∈ rest.map (·.name)
    · have hne : him.name ≠ id := fun heq => h.1 (heq ▸ hrest)
      simp [hrest,hne,invite]
    · have hinvite := invite_of_not_mem hrest
      by_cases heq : him.name = id
      · have hmem : id ∈ (him::rest).map (·.name) := by simp [heq]
        rw [if_neg hrest,if_pos hmem,invite,List.map_cons]
        simp only [if_pos heq]
        exact congrArg (fun l => some ({him with state := .stateConfirmed}::l)) hinvite.symm
      · have hnot : id ∉ (him::rest).map (·.name) := by simpa [Ne.symm heq] using hrest
        simp only [if_neg hrest,if_neg heq,if_neg hnot]

def looked (ws done : List CString) : List Mate :=
  ws.map (fun w => ⟨w,if w ∈ done then .stateConfirmed else .stateOld⟩) ++
    (done.filter (· ∉ ws)).map (⟨·,.stateNone⟩)

theorem names_looked (ws done : List CString) :
    (looked ws done).map (·.name) = ws ++ done.filter (· ∉ ws) := by
  simp [looked,Function.comp_def]

theorem lookup_looked (hws : ws.Nodup) (hdone : (done ++ [id]).Nodup) :
    lookup (looked ws done) id = looked ws (done ++ [id]) := by
  have hid : id ∉ done := by
    intro hmem
    exact (List.nodup_append.mp hdone).2.2 id hmem id (List.mem_singleton_self id) rfl
  have hnames : ((looked ws done).map (·.name)).Nodup := by
    rw [names_looked]
    refine hws.append ((List.nodup_append.mp hdone).1.filter _) ?_
    intro w hw hmem
    simpa [hw] using (List.mem_filter.mp hmem).2
  rw [lookup,confirm_eq hnames,names_looked]
  by_cases hmem : id ∈ ws
  · rw [if_pos (List.mem_append_left _ hmem),Option.getD_some,looked,looked,invite,List.map_append,List.map_map,
      List.filter_append,List.filter_cons_of_neg (by simpa using hmem),List.filter_nil,List.append_nil]
    congr 1
    · refine List.map_congr_left fun w hw => ?_
      by_cases heq : w = id <;> simp [heq]
    · rw [List.map_map]
      refine List.map_congr_left fun w hw => ?_
      have hne : w ≠ id := fun heq => hid (heq ▸ (List.mem_filter.mp hw).1)
      simp [hne]
  · have hnot : id ∉ ws ++ done.filter (· ∉ ws) := by simp [hmem,hid]
    rw [if_neg hnot,Option.getD_none,looked,looked,List.filter_append,List.filter_cons_of_pos (by simpa using hmem),
      List.filter_nil,List.map_append,List.append_assoc]
    congr 1
    refine List.map_congr_left fun w hw => ?_
    have hne : w ≠ id := fun heq => hmem (heq ▸ hw)
    simp [hne]

theorem foldl_lookup (hws : ws.Nodup) (hne : ∀ w ∈ ws, w ≠ []) (hidlist : idlist.Nodup) :
    idlist.foldl lookup (old ws) = looked ws idlist := by
  have hgen : ∀ rest done, (done ++ rest).Nodup → rest.foldl lookup (looked ws done) = looked ws (done ++ rest) := by
    intro rest
    induction rest with
    | nil => simp
    | cons id rest ih =>
      intro done hnodup
      have happend : done ++ id::rest = done ++ [id] ++ rest := by simp
      rw [happend] at hnodup ⊢
      rw [List.foldl_cons,lookup_looked hws (List.nodup_append.mp hnodup).1,ih _ hnodup]
  have hold : old ws = looked ws [] := by simp [looked,old_words hne]
  rw [hold,hgen idlist [] hidlist]
  rfl

def settled (names res : List CString) : List Mate :=
  names.map fun w => ⟨w,if w ∈ res then .stateConfirmed else .stateNone⟩

theorem missing_settled (names res : List CString) :
    missing (kickout (settled names res)) = (names.countP (· ∉ res),names.filter (· ∈ res)) := by
  have hkick : kickout (settled names res) = settled names res := by
    rw [kickout,List.filter_eq_self]
    intro him hhim
    obtain ⟨w,-,rfl⟩ := List.mem_map.mp hhim
    by_cases hw : w ∈ res <;> simp [hw]
  rw [hkick,missing,settled,List.countP_map,List.filter_map,List.map_map]
  congr 1
  · refine List.countP_congr fun w _ => ?_
    by_cases hw : w ∈ res <;> simp [hw]
  · rw [Function.comp_def,List.map_id']
    refine List.filter_congr fun w _ => ?_
    by_cases hw : w ∈ res <;> simp [hw]

/-- The names of the list: those of the file, and the other ones of the ID list. -/
theorem perm_names (hidlist : idlist.Nodup) (hws : Members idlist ws) :
    (ws ++ idlist.filter (· ∉ ws)).Perm idlist := by
  rw [List.perm_ext_iff_of_nodup _ hidlist]
  · intro w
    by_cases hw : w ∈ ws <;> simp [hw,hws.mem w]
  · refine hws.nodup.append (hidlist.filter _) fun w hw hmem => ?_
    simpa [hw] using (List.mem_filter.mp hmem).2

theorem reject_looked (hws : Members idlist ws) :
    reject us (looked ws idlist) = settled (ws ++ idlist.filter (· ∉ ws)) (ws.filter (· ≠ us)) := by
  rw [reject,looked,settled,List.map_append,List.map_append,List.map_map,List.map_map]
  congr 1
  · refine List.map_congr_left fun w hw => ?_
    by_cases heq : w = us <;> simp [heq,hw,hws.mem w hw]
  · refine List.map_congr_left fun w hw => ?_
    have hnot : w ∉ ws := by simpa using (List.mem_filter.mp hw).2
    by_cases heq : w = us <;> simp [heq,hnot]

theorem invite_looked (hws : Members idlist ws) :
    invite us (looked ws idlist) =
      settled (ws ++ idlist.filter (· ∉ ws)) (if us ∈ ws then ws else ws ++ [us]) := by
  have hmem : ∀ w, w ∈ (if us ∈ ws then ws else ws ++ [us]) ↔ w ∈ ws ∨ w = us := by
    intro w
    by_cases hus : us ∈ ws
    · rw [if_pos hus]
      exact ⟨Or.inl,fun h => h.elim id fun heq => heq ▸ hus⟩
    · simp [hus]
  rw [invite,looked,settled,List.map_append,List.map_append,List.map_map,List.map_map]
  simp only [hmem]
  congr 1
  · refine List.map_congr_left fun w hw => ?_
    by_cases heq : w = us <;> simp [heq,hw,hws.mem w hw]
  · refine List.map_congr_left fun w hw => ?_
    have hnot : w ∉ ws := by simpa using (List.mem_filter.mp hw).2
    by_cases heq : w = us <;> simp [heq,hnot]

theorem filter_names (hidlist : idlist.Nodup) {r : Run} (hr : r.us ∈ idlist) :
    (ws ++ idlist.filter (· ∉ ws)).filter (· ∈ afterRun ws r) = afterRun ws r := by
  rw [List.filter_append,List.filter_filter,afterRun]
  have hnone : ∀ res : List CString, (∀ w ∈ res, w ∈ ws) →
      idlist.filter (fun w => decide (w ∈ res) && decide (w ∉ ws)) = [] := by
    intro res hres
    rw [List.filter_eq_nil_iff]
    intro w _ hw
    have hmem : w ∈ res ∧ w ∉ ws := by simpa using hw
    exact hmem.2 (hres w hmem.1)
  split_ifs with hprune hus
  · rw [hnone _ fun w hw => (List.mem_filter.mp hw).1,List.append_nil]
    refine List.filter_congr fun w hw => ?_
    simp [hw]
  · rw [hnone _ fun w hw => hw,List.append_nil,List.filter_eq_self]
    simp
  · congr 1
    · rw [List.filter_eq_self]
      intro w hw
      simp [hw]
    · have hcongr : idlist.filter (fun w => decide (w ∈ ws ++ [r.us]) && decide (w ∉ ws)) =
          idlist.filter (· == r.us) := by
        refine List.filter_congr fun w _ => ?_
        by_cases heq : w = r.us <;> by_cases hw : w ∈ ws <;> simp_all
      rw [hcongr,List.filter_beq,List.count_eq_one_of_mem hidlist hr]
      rfl

theorem main_eq {r : Run} (hidlist : idlist.Nodup) (hne : ∀ id ∈ idlist, id ≠ [] ∧ Plain id) (hws : Members idlist ws)
    (hr : r.us ∈ idlist) (hback : ReadsBack ws) :
    main idlist r ws = some (idlist.countP (· ∉ afterRun ws r),afterRun ws r) := by
  obtain ⟨bunch,hcheck,-,hold⟩ := checkout_spec fun w hw => hne w (hws.mem w hw)
  rw [main,hcheck,Option.map_some,hold hback]
  simp only [foldl_lookup hws.nodup (fun w hw => (hne w (hws.mem w hw)).1) hidlist,Option.some.injEq]
  have hsettled : (if r.prune then reject r.us (looked ws idlist) else invite r.us (looked ws idlist)) =
      settled (ws ++ idlist.filter (· ∉ ws)) (afterRun ws r) := by
    rw [afterRun]
    by_cases hprune : r.prune = true
    · rw [if_pos hprune,if_pos hprune,reject_looked hws]
    · rw [if_neg hprune,if_neg hprune,invite_looked hws]
  rw [hsettled,missing_settled,(perm_names hidlist hws).countP_eq,filter_names hidlist hr]

end Main

section Runs

variable {idlist : List CString} {runs pre : List Run} {r : Run}

/-- What a run of the sequence does: it reads back the words that the run before it wrote, and
returns the number of the IDs that are not added after it. -/
def Counts (idlist : List CString) (pre : List Run) (r : Run) : Prop :=
  ∃ written bunch ret next, Runs.run (step idlist) [] pre = some written ∧
    checkout (checkpoint written) = some bunch ∧ bunch.map (·.name) = written ∧
    main idlist r written = some (ret,next) ∧ ret = idlist.countP (· ∉ added (pre ++ [r]))

theorem counts_iff (hidlist : idlist.Nodup) (hne : ∀ id ∈ idlist, id ≠ [] ∧ Plain id)
    (hpre : ∀ r ∈ pre, r.us ∈ idlist) (hr : r.us ∈ idlist)
    (hrun : Runs.run (step idlist) [] pre = some (added pre)) : Counts idlist pre r ↔ ReadsBack (added pre) := by
  have hmembers := members_added hpre
  obtain ⟨bunch,hcheck,hnames,-⟩ := checkout_spec fun w hw => hne w (hmembers.mem w hw)
  constructor
  · rintro ⟨written,bunch',ret,next,hrun',hcheck',hnames',-,-⟩
    obtain rfl := Option.some.inj (hrun.symm.trans hrun')
    obtain rfl := Option.some.inj (hcheck.symm.trans hcheck')
    exact hnames.mp hnames'
  · intro hback
    refine ⟨added pre,bunch,_,_,hrun,hcheck,hnames.mpr hback,main_eq hidlist hne hmembers hr hback,?_⟩
    rw [added_concat]

theorem run_concat (hidlist : idlist.Nodup) (hne : ∀ id ∈ idlist, id ≠ [] ∧ Plain id)
    (hpre : ∀ r ∈ pre, r.us ∈ idlist) (hr : r.us ∈ idlist)
    (hrun : Runs.run (step idlist) [] pre = some (added pre)) (hback : ReadsBack (added pre)) :
    Runs.run (step idlist) [] (pre ++ [r]) = some (added (pre ++ [r])) := by
  rw [Runs.run_append,hrun,added_concat]
  simp [Runs.run,step,main_eq hidlist hne (members_added hpre) hr hback]

theorem run_added (hidlist : idlist.Nodup) (hne : ∀ id ∈ idlist, id ≠ [] ∧ Plain id)
    (hruns : ∀ r ∈ runs, r.us ∈ idlist) (hback : ∀ pre r, pre ++ [r] <+: runs → ReadsBack (added pre)) :
    Runs.run (step idlist) [] runs = some (added runs) := by
  induction runs using List.reverseRecOn with
  | nil => rfl
  | append_singleton runs r ih =>
    have hruns' : ∀ r' ∈ runs, r'.us ∈ idlist := fun r' hr' => hruns r' (List.mem_append_left _ hr')
    have hprev := ih hruns' fun pre r' hpre => hback pre r' (hpre.trans (List.prefix_append _ _))
    exact run_concat hidlist hne hruns' (hruns r (by simp)) hprev (hback runs r List.prefix_rfl)

theorem collect_counts_iff (hidlist : idlist.Nodup) (hne : ∀ id ∈ idlist, id ≠ [] ∧ Plain id)
    (hruns : ∀ r ∈ runs, r.us ∈ idlist) :
    (∀ pre r, pre ++ [r] <+: runs → Counts idlist pre r) ↔
      ∀ pre r, pre ++ [r] <+: runs → ReadsBack (added pre) := by
  induction runs using List.reverseRecOn with
  | nil => simp
  | append_singleton runs r ih =>
    have hruns' : ∀ r' ∈ runs, r'.us ∈ idlist := fun r' hr' => hruns r' (List.mem_append_left _ hr')
    have hr : r.us ∈ idlist := hruns r (by simp)
    have hsplit : ∀ P : List Run → Run → Prop, (∀ pre r', pre ++ [r'] <+: runs ++ [r] → P pre r') ↔
        (∀ pre r', pre ++ [r'] <+: runs → P pre r') ∧ P runs r := by
      intro P
      constructor
      · intro h
        exact ⟨fun pre r' hpre => h pre r' (hpre.trans (List.prefix_append _ _)),h runs r List.prefix_rfl⟩
      · rintro ⟨h,hlast⟩ pre r' hpre
        rcases List.prefix_concat_iff.mp hpre with heq | hpre
        · obtain ⟨rfl,rfl⟩ := List.append_singleton_inj.mp heq
          exact hlast
        · exact h pre r' hpre
    rw [hsplit,hsplit,ih hruns']
    refine and_congr_right fun hback => ?_
    exact counts_iff hidlist hne hruns' hr (run_added hidlist hne hruns' hback)

/-- Two disks of a set: added, and one of them removed. -/
theorem collect_counts_disks :
    let idlist := [str "sda",str "sdb"]
    let runs : List Run := [⟨false,str "sdb"⟩,⟨false,str "sda"⟩,⟨true,str "sdb"⟩]
    idlist.Nodup ∧ (∀ id ∈ idlist, id ≠ [] ∧ Plain id) ∧ (∀ r ∈ runs, r.us ∈ idlist) ∧
      ((∀ pre r, pre ++ [r] <+: runs → Counts idlist pre r) ↔
        ∀ pre r, pre ++ [r] <+: runs → ReadsBack (added pre)) :=
  ⟨by decide,by decide +kernel,by decide,collect_counts_iff (by decide) (by decide +kernel) (by decide)⟩

/-- An ID that does not fit into the first buffer, behind one that does: the first one is read back
twice, and counted twice when it is removed. -/
theorem removed_counted_twice :
    let idlist := [str "a",str "a-name-of-17-char"]
    let runs : List Run := [⟨false,str "a"⟩,⟨false,str "a-name-of-17-char"⟩,⟨true,str "a"⟩]
    idlist.Nodup ∧ (∀ id ∈ idlist, id ≠ [] ∧ Plain id) ∧ (∀ r ∈ runs, r.us ∈ idlist) ∧
      (main idlist ⟨true,str "a"⟩ [str "a",str "a-name-of-17-char"]).map (·.1) = some 2 ∧
      idlist.countP (· ∉ added runs) = 1 ∧
      ¬∀ pre r, pre ++ [r] <+: runs → Counts idlist pre r := by
  refine ⟨by decide,by decide +kernel,by decide,by decide +kernel,by decide +kernel,fun h => ?_⟩
  obtain ⟨written,bunch,ret,next,hrun,-,-,hmain,hret⟩ :=
    h [⟨false,str "a"⟩,⟨false,str "a-name-of-17-char"⟩] ⟨true,str "a"⟩ List.prefix_rfl
  have hwritten : Runs.run (step [str "a",str "a-name-of-17-char"]) []
      [⟨false,str "a"⟩,⟨false,str "a-name-of-17-char"⟩] = some [str "a",str "a-name-of-17-char"] := by
    decide +kernel
  obtain rfl := Option.some.inj (hwritten.symm.trans hrun)
  have hvalue : (main [str "a",str "a-name-of-17-char"] ⟨true,str "a"⟩ [str "a",str "a-name-of-17-char"]).map (·.1) =
      some 2 := by
    decide +kernel
  have htwo : ret = 2 := by simpa [hmain] using hvalue
  rw [htwo] at hret
  exact absurd hret (by decide +kernel)

end Runs

end Collect
end Udev
