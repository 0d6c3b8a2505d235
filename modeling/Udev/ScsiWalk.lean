import Udev.ScsiSearch

/-! The walk over the descriptors of page 0x83. It always ends, but a descriptor may say that it is longer than the
page, and the begin of one may lie behind the buffer. -/
namespace Udev
namespace Scsi

open CString Memory SearchLoop

section Walk

variable (page : Memory)

def Within (j : ℕ) : Prop := j+4+(page (j+3)).toNat ≤ (page 3).toNat+4

instance (j : ℕ) : Decidable (Within page j) := inferInstanceAs (Decidable (_ ≤ _))

/-- The code reads the buffer only, and takes only descriptors that lie in the page. -/
def Scan.Bounded (st : Scan) : Prop := (∀ i ∈ st.reads, i < scsiInqBuffLen) ∧ ∀ j ∈ st.used, Within page j

theorem walk_length (j : ℕ) : 4*(walk page j).length ≤ (page 3).toNat+7-j := by
  fun_induction walk page j with
  | case1 j hle ih =>
    rw [List.length_cons]
    omega
  | case2 j hlt => exact Nat.zero_le _

theorem walk_le {j : ℕ} {i : ℕ} (hi : i ∈ walk page j) : j ≤ i := by
  fun_induction walk page j with
  | case1 j hle ih =>
    rcases List.mem_cons.mp hi with rfl | hi
    · exact le_rfl
    · have hrest := ih hi
      omega
  | case2 j hlt => exact absurd hi List.not_mem_nil

theorem walk_pairwise (j : ℕ) : (walk page j).Pairwise (· + 4 ≤ ·) := by
  fun_induction walk page j with
  | case1 j hle ih =>
    refine List.pairwise_cons.mpr ⟨fun i hi => ?_,ih⟩
    have hstep := walk_le page hi
    omega
  | case2 j hlt => exact List.Pairwise.nil

end Walk

section Steps

variable {page : Memory} {id : SearchValues} {j : ℕ}

theorem Scan.bounded_read {st : Scan} {l : List ℕ} :
    (st.read l).Bounded page ↔ st.Bounded page ∧ ∀ i ∈ l, i < scsiInqBuffLen := by
  rw [Scan.Bounded,Scan.Bounded,Scan.read,List.forall_mem_append]
  exact and_right_comm

theorem Scan.bounded_use {st : Scan} : (st.use j).Bounded page ↔ st.Bounded page ∧ Within page j := by
  rw [Scan.Bounded,Scan.Bounded,Scan.use,List.forall_mem_append,List.forall_mem_singleton,and_assoc]

theorem Scan.bounded_dev {st : Scan} {dev : ScsiIdDevice} : Scan.Bounded page { st with dev := dev } ↔ st.Bounded page :=
  Iff.rfl

variable (page)

def headerReads (id : SearchValues) (j : ℕ) : List ℕ := (runChecks (checks page j id)).1

/-- What a step of the search needs, for a descriptor that is taken or not. -/
def StepRight (c : SearchValues × ℕ) (accepted : Bool) : Prop :=
  (∀ i ∈ headerReads page c.1 c.2, i < scsiInqBuffLen) ∧
    (fits page c.2 c.1 = true → c.1.idType = scsiIdTgtgroup → c.2+7 < scsiInqBuffLen ∧ Within page c.2) ∧
    if accepted then (∀ i ∈ List.range' (c.2+4) (page (c.2+3)).toNat, i < scsiInqBuffLen) ∧ Within page c.2
    else c.2+3 < scsiInqBuffLen

variable {page} {names : Names} {k : ℕ} {st : Scan}

variable (page id j) in
theorem step_bounded (hleft : Left names k st.dev.serial) : (tryDescriptor names page id j st).2.Bounded page ↔
    st.Bounded page ∧ StepRight page (id,j) (attempt names page (id,j) k).1 := by
  by_cases h : (attempt names page (id,j) k).1 = true
  · have hgroup := (attempt_accepted h).2
    rw [tryDescriptor_taken hleft h,fillIdentifier,Scan.bounded_dev,Scan.bounded_use,Scan.bounded_read,
      Scan.bounded_read,StepRight,h,if_pos rfl,headerReads]
    simp only [hgroup,false_implies,implies_true,true_and,and_assoc]
  · rw [Bool.not_eq_true] at h
    rw [tryDescriptor_failed hleft h,Scan.bounded_read,List.forall_mem_singleton,StepRight,h,
      if_neg Bool.false_ne_true,← and_assoc,← and_assoc]
    refine and_congr_left fun hlast => ?_
    by_cases hfits : fits page j id = true
    · by_cases hgroup : id.idType = scsiIdTgtgroup
      · rw [check_group hfits hgroup,Scan.group,Scan.bounded_dev,Scan.bounded_use,Scan.bounded_read,Scan.bounded_read,
          headerReads,and_assoc,and_assoc,and_assoc]
        refine and_congr_right fun _ => and_congr_right fun _ => ?_
        refine ⟨fun hread _ _ => ⟨?_,hread.2⟩,fun hright => ⟨?_,(hright hfits hgroup).2⟩⟩
        · exact hread.1 (j+7) (List.mem_cons_of_mem _ (List.mem_singleton_self _))
        · intro i hi
          have hlast := (hright hfits hgroup).1
          have hle : i ≤ j+7 := by
            rcases List.mem_pair.mp hi with rfl | rfl
            · exact Nat.le_succ _
            · exact le_rfl
          exact lt_of_le_of_lt hle hlast
      · obtain ⟨hvendor,hfull⟩ := attempt_failed h hfits hgroup
        rw [check_vendor hleft hfits hvendor hfull,Scan.bounded_dev,Scan.bounded_read,headerReads]
        simp only [hgroup,false_implies,implies_true,and_true]
    · rw [Bool.not_eq_true] at hfits
      rw [check_rejected hfits,Scan.bounded_read,headerReads]
      simp only [hfits,Bool.false_eq_true,false_implies,and_true]

/-- The steps of a run of the search are right, up to the descriptor that is taken. -/
def Examined (names : Names) (page : Memory) : List (SearchValues × ℕ) → ℕ → Prop
  | [], _ => True
  | c::l, k => StepRight page c (attempt names page c k).1 ∧
    ((attempt names page c k).1 = false → Examined names page l (attempt names page c k).2)

theorem search_bounded (l : List (SearchValues × ℕ)) (hleft : Left names k st.dev.serial) :
    (pick (fun c => tryDescriptor names page c.1 c.2) l st).2.Bounded page ↔
      st.Bounded page ∧ Examined names page l k := by
  induction l generalizing st k with
  | nil => exact (and_iff_left trivial).symm
  | cons c l ih =>
    have hstep := step_bounded page c.1 c.2 hleft
    rw [Examined]
    by_cases hc : (attempt names page c k).1 = true
    · rw [pick_cons_of_true (by rw [tryDescriptor_taken hleft hc]),hstep,hc]
      simp only [Bool.true_eq_false,false_implies,and_true]
    · rw [Bool.not_eq_true] at hc
      have hfailed := check_failed hleft hc
      have hrun := tryDescriptor_failed hleft hc
      rw [pick_cons_of_false (by rw [hrun]),ih (k := (attempt names page c k).2) (by rw [hrun]; exact hfailed.2.1),
        hstep,hc]
      simp only [true_implies,and_assoc]

end Steps

section Headers

variable {page : Memory} {id : SearchValues} {j : ℕ}

def naaDescriptor (page : Memory) (j : ℕ) : Prop := page (j+1) &&& 0x30 = 0 ∧ page (j+1) &&& 0x0f = scsiIdNaa

theorem runChecks_subset (l : List (List ℕ × Bool)) : (runChecks l).1 ⊆ l.flatMap (·.1) := by
  induction l with
  | nil => exact List.Subset.refl _
  | cons c l ih =>
    obtain ⟨reads,ok⟩ := c
    rw [runChecks,List.flatMap_cons]
    cases ok with
    | false => exact List.subset_append_left _ _
    | true => exact List.append_subset.mpr ⟨List.subset_append_left _ _,fun _ hi => List.mem_append_right _ (ih hi)⟩

/-- The byte behind the header is read for a line with a kind of address, when the descriptor has its type. -/
def naaRead (page : Memory) (id : SearchValues) (j : ℕ) : Prop :=
  id.naaType ≠ scsiIdNaaDontCare ∧ associated page j id = true ∧ page (j+1) &&& 0x0f = id.idType

theorem headerReads_of {i : ℕ} (hi : i ∈ headerReads page id j) : i ≤ j+3 ∨ (i = j+4 ∧ naaRead page id j) := by
  rw [headerReads,checks] at hi
  by_cases hassoc : associated page j id = true
  · by_cases htype : page (j+1) &&& 0x0f = id.idType
    · have hmem := runChecks_subset _ hi
      by_cases hnaa : id.naaType = scsiIdNaaDontCare
      · simp only [hnaa,↓reduceIte,true_or,decide_true,List.flatMap_cons,List.flatMap_nil,List.append_nil,List.cons_append,
          List.nil_append,List.mem_cons,List.not_mem_nil,or_false,or_self_left] at hmem
        omega
      · simp only [hnaa,↓reduceIte,false_or,List.flatMap_cons,List.flatMap_nil,List.append_nil,List.cons_append,
          List.nil_append,List.mem_cons,List.not_mem_nil,or_false,or_self_left] at hmem
        have hread : naaRead page id j := ⟨hnaa,hassoc,htype⟩
        simp only [hread,and_true]
        omega
    · simp only [runChecks,hassoc,↓reduceIte,htype,decide_false,Bool.false_eq_true,List.cons_append,List.nil_append,
        List.mem_cons,List.not_mem_nil,or_false,or_self] at hi
      omega
  · simp only [runChecks,hassoc,Bool.false_eq_true,↓reduceIte,List.mem_cons,List.not_mem_nil,or_false] at hi
    omega

theorem headerReads_naa (h : naaRead page id j) : j+4 ∈ headerReads page id j := by
  rw [headerReads,checks,runChecks,h.2.1,if_pos rfl,runChecks,decide_eq_true h.2.2,if_pos rfl,runChecks,if_neg h.1]
  split_ifs <;> simp

theorem step_failed (hread : j+3 < scsiInqBuffLen) (hgroup : id.idType ≠ scsiIdTgtgroup) :
    StepRight page (id,j) false ↔ (naaRead page id j → j+4 < scsiInqBuffLen) := by
  refine ⟨fun h hnaa => h.1 _ (headerReads_naa hnaa),fun h => ⟨fun i hi => ?_,fun _ hg => absurd hg hgroup,hread⟩⟩
  rcases headerReads_of hi with hle | ⟨rfl,hnaa⟩
  · exact lt_of_le_of_lt hle hread
  · exact h hnaa

end Headers

section Page

variable (names : Names) (page : Memory)

def tgtgroupLine : SearchValues := ⟨scsiIdTgtgroup,scsiIdNaaDontCare,scsiIdBinary⟩

def extendedLine : SearchValues := ⟨scsiIdNaa,scsiIdNaaIeeeRegExtended,scsiIdBinary⟩

/-- When the walk stays in the buffer and takes only descriptors that lie in the page. -/
structure WalkRight (k : ℕ) : Prop where
  /-- Every descriptor that begins in the page has its header in the buffer. -/
  headers : ∀ j ∈ walk page 4, j+3 < scsiInqBuffLen
  /-- Behind the header of a network address there is another byte, unless the search ends before. -/
  naa : ∀ j ∈ walk page 4, naaDescriptor page j → j+4 < scsiInqBuffLen ∨
    ∃ i ∈ walk page 4, i < j ∧ fits page i extendedLine = true
  groups : ∀ j ∈ walk page 4, fits page j tgtgroupLine = true → j+7 < scsiInqBuffLen ∧ Within page j
  identifier : ∀ c, (taken names page k).1 = some c → c.2+4+(page (c.2+3)).toNat ≤ scsiInqBuffLen ∧ Within page c.2

variable {names page} {k : ℕ}

/-- The descriptors with the lines of the search list behind the first two. -/
def laterCandidates (page : Memory) : List (SearchValues × ℕ) :=
  (idSearchList.drop 2).flatMap fun id => (walk page 4).map (id,·)

theorem candidates_eq (page : Memory) : candidates page =
    (walk page 4).map (tgtgroupLine,·) ++ ((walk page 4).map (extendedLine,·) ++ laterCandidates page) := rfl

theorem attempt_tgtgroup (j : ℕ) : attempt names page (tgtgroupLine,j) k = (false,k) := if_neg fun h => h.2 rfl

theorem examined_append {l l' : List (SearchValues × ℕ)} (h : ∀ c ∈ l, attempt names page c k = (false,k)) :
    Examined names page (l ++ l') k ↔ (∀ c ∈ l, StepRight page c false) ∧ Examined names page l' k := by
  induction l with
  | nil => simp only [List.nil_append,List.not_mem_nil,false_implies,implies_true,true_and]
  | cons c l ih =>
    rw [List.forall_mem_cons] at h
    rw [List.cons_append,Examined,h.1,ih h.2,List.forall_mem_cons]
    simp only [true_implies,and_assoc]

/-- Where no failing step goes wrong, it depends on the descriptor that is taken. -/
theorem examined_of_failed {l : List (SearchValues × ℕ)} (h : ∀ c ∈ l, StepRight page c false) :
    Examined names page l k ↔ ∀ c, (pick (attempt names page) l k).1 = some c → StepRight page c true := by
  induction l generalizing k with
  | nil => exact iff_of_true trivial fun c hc => absurd hc.symm (Option.some_ne_none c)
  | cons c l ih =>
    rw [List.forall_mem_cons] at h
    rw [Examined]
    by_cases hc : (attempt names page c k).1 = true
    · rw [pick_cons_of_true hc,hc]
      simp only [Bool.true_eq_false,false_implies,and_true,Option.some.injEq,forall_eq']
    · rw [Bool.not_eq_true] at hc
      rw [pick_cons_of_false hc,hc,← ih h.2]
      simp only [true_implies,h.1,true_and]

theorem examined_append_of_taken {l l' : List (SearchValues × ℕ)} (h : (pick (attempt names page) l k).1.isSome = true) :
    Examined names page (l ++ l') k ↔ Examined names page l k := by
  induction l generalizing k with
  | nil => cases h
  | cons c l ih =>
    rw [List.cons_append,Examined,Examined]
    refine and_congr_right fun _ => imp_congr_right fun hc => ih ?_
    rw [pick_cons_of_false hc] at h
    exact h

theorem step_tgtgroup (j : ℕ) : StepRight page (tgtgroupLine,j) false ↔
    j+3 < scsiInqBuffLen ∧ (fits page j tgtgroupLine = true → j+7 < scsiInqBuffLen ∧ Within page j) := by
  refine ⟨fun h => ⟨h.2.2,fun hfits => h.2.1 hfits rfl⟩,fun h => ⟨fun i hi => ?_,fun hfits _ => h.2 hfits,h.1⟩⟩
  rcases headerReads_of hi with hle | ⟨-,hnaa⟩
  · exact lt_of_le_of_lt hle h.1
  · exact absurd rfl hnaa.1

theorem payload_inside {j n : ℕ} (h : j+3 < scsiInqBuffLen) :
    (∀ i ∈ List.range' (j+4) n, i < scsiInqBuffLen) ↔ j+4+n ≤ scsiInqBuffLen := by
  refine ⟨fun hall => ?_,fun hle i hi => lt_of_lt_of_le (List.mem_range'_1.mp hi).2 hle⟩
  cases n with
  | zero => exact h
  | succ n => exact hall (j+4+n) (List.mem_range'_1.mpr ⟨Nat.le_add_right _ _,Nat.lt_succ_self _⟩)

theorem later_lines : ∀ id ∈ idSearchList.drop 1, id.idType ≠ scsiIdTgtgroup := by decide

theorem naaRead_later {id : SearchValues} {j : ℕ} (hid : id ∈ idSearchList.drop 1) (h : naaRead page id j) :
    naaDescriptor page j := by
  have hnaa := address_lines id (List.mem_of_mem_drop hid) h.1
  obtain ⟨-,hassoc,htype⟩ := h
  rw [associated,hnaa] at hassoc
  refine ⟨?_,htype.trans hnaa⟩
  by_cases hport : page (j+1) &&& 0x30 = 0x10
  · rw [if_pos hport] at hassoc
    cases hassoc
  · rw [if_neg hport] at hassoc
    exact of_decide_eq_true hassoc

theorem naaRead_extended {j : ℕ} (h : naaDescriptor page j) : naaRead page extendedLine j := by
  refine ⟨by decide,?_,h.2⟩
  rw [associated,if_neg (by rw [h.1]; decide)]
  exact decide_eq_true h.1

theorem mem_later {c : SearchValues × ℕ} (hc : c ∈ (walk page 4).map (extendedLine,·) ++ laterCandidates page) :
    c.1 ∈ idSearchList.drop 1 ∧ c.2 ∈ walk page 4 := by
  rcases List.mem_append.mp hc with hc | hc
  · obtain ⟨j,hj,rfl⟩ := List.mem_map.mp hc
    exact ⟨show extendedLine ∈ idSearchList.drop 1 by decide,hj⟩
  · obtain ⟨id,hid,hc⟩ := List.mem_flatMap.mp hc
    obtain ⟨j,hj,rfl⟩ := List.mem_map.mp hc
    exact ⟨List.mem_of_mem_drop hid,hj⟩

theorem taken_eq : taken names page k =
    pick (attempt names page) ((walk page 4).map (extendedLine,·) ++ laterCandidates page) k := by
  have hfirst : pick (attempt names page) ((walk page 4).map (tgtgroupLine,·)) k = (none,k) := by
    refine pick_failed fun c hc => ?_
    obtain ⟨j,-,rfl⟩ := List.mem_map.mp hc
    exact attempt_tgtgroup j
  rw [taken,candidates_eq,pick_append,hfirst]
  rfl

theorem step_taken {c : SearchValues × ℕ} (hfailed : StepRight page c false) (hgroup : c.1.idType ≠ scsiIdTgtgroup) :
    StepRight page c true ↔ c.2+4+(page (c.2+3)).toNat ≤ scsiInqBuffLen ∧ Within page c.2 := by
  rw [StepRight,if_pos rfl,payload_inside hfailed.2.2]
  exact ⟨fun h => h.2.2,fun h => ⟨hfailed.1,fun _ hg => absurd hg hgroup,h⟩⟩

/-- Where no failing step goes wrong, the descriptor that is taken has to lie in the buffer and in the page. -/
theorem examined_taken {l : List (SearchValues × ℕ)} (h : ∀ c ∈ l, StepRight page c false)
    (hgroup : ∀ c ∈ l, c.1.idType ≠ scsiIdTgtgroup) :
    Examined names page l k ↔ ∀ c, (pick (attempt names page) l k).1 = some c →
      c.2+4+(page (c.2+3)).toNat ≤ scsiInqBuffLen ∧ Within page c.2 := by
  rw [examined_of_failed h]
  exact forall_congr' fun c => imp_congr_right fun hc => step_taken (h c (pick_mem hc)) (hgroup c (pick_mem hc))

/-- A network address whose header is the end of the buffer is the last descriptor. -/
theorem walk_last (hheaders : ∀ j ∈ walk page 4, j+3 < scsiInqBuffLen) {j : ℕ} (hj : j ∈ walk page 4)
    (hlast : scsiInqBuffLen ≤ j+4) : ∃ js, walk page 4 = js ++ [j] ∧ ∀ i ∈ js, i+4 ≤ j := by
  obtain ⟨js,rest,hsplit⟩ := List.append_of_mem hj
  have hpairs := walk_pairwise page 4
  rw [hsplit,List.pairwise_append,List.pairwise_cons] at hpairs
  have hrest : rest = [] := List.eq_nil_iff_forall_not_mem.mpr fun i hi => by
    have hstep := hpairs.2.1.1 i hi
    have hhead := hheaders i (by rw [hsplit]; exact List.mem_append_right _ (List.mem_cons_of_mem j hi))
    omega
  rw [hrest] at hsplit
  exact ⟨js,hsplit,fun i hi => hpairs.2.2 i hi j List.mem_cons_self⟩

theorem attempt_extended {i : ℕ} : attempt names page (extendedLine,i) k = (fits page i extendedLine,k) := by
  have htype : extendedLine.idType ≠ scsiIdTgtgroup ∧ extendedLine.idType ≠ scsiIdVendorSpecific := by decide
  rw [attempt]
  by_cases hfits : fits page i extendedLine = true
  · rw [if_pos ⟨hfits,htype.1⟩,if_neg htype.2,hfits]
  · rw [if_neg fun h => hfits h.1,Bool.eq_false_iff.mpr hfits]

theorem pick_extended (js : List ℕ) : (pick (attempt names page) (js.map (extendedLine,·)) k).1 =
    (js.map (extendedLine,·)).find? fun c => fits page c.2 extendedLine := by
  refine pick_find fun c hc => ?_
  obtain ⟨i,-,rfl⟩ := List.mem_map.mp hc
  rw [attempt_extended]
  exact ⟨rfl,fun _ => rfl⟩

/-- Behind the line of target port groups, where a network address ends with the buffer. -/
theorem examined_last (hheaders : ∀ j ∈ walk page 4, j+3 < scsiInqBuffLen) {j : ℕ} (hj : j ∈ walk page 4)
    (hnaa : naaDescriptor page j) (hlast : scsiInqBuffLen ≤ j+4) :
    Examined names page ((walk page 4).map (extendedLine,·) ++ laterCandidates page) k ↔
      (∃ i ∈ walk page 4, i < j ∧ fits page i extendedLine = true) ∧
        ∀ c, (taken names page k).1 = some c → c.2+4+(page (c.2+3)).toNat ≤ scsiInqBuffLen ∧ Within page c.2 := by
  obtain ⟨js,hsplit,hbefore⟩ := walk_last hheaders hj hlast
  have hright : ∀ c ∈ js.map (extendedLine,·), StepRight page c false := by
    intro c hc
    obtain ⟨i,hi,rfl⟩ := List.mem_map.mp hc
    have hle := hbefore i hi
    have hin := hheaders j hj
    exact (step_failed (by omega) (by decide)).mpr fun _ => by omega
  rw [taken_eq,hsplit,List.map_append,List.append_assoc]
  by_cases hfound : ∃ i ∈ js, fits page i extendedLine = true
  · obtain ⟨i,hi,hfits⟩ := hfound
    have hsome : (pick (attempt names page) (js.map (extendedLine,·)) k).1.isSome = true := by
      rw [pick_extended,List.find?_isSome]
      exact ⟨(extendedLine,i),List.mem_map_of_mem hi,hfits⟩
    have hgroup : ∀ c ∈ js.map (extendedLine,·), c.1.idType ≠ scsiIdTgtgroup := by
      intro c hc
      obtain ⟨i,-,rfl⟩ := List.mem_map.mp hc
      exact show extendedLine.idType ≠ scsiIdTgtgroup by decide
    rw [examined_append_of_taken hsome,examined_taken hright hgroup,pick_append,if_pos hsome]
    refine (and_iff_right ⟨i,List.mem_append_left _ hi,?_,hfits⟩).symm
    have hle := hbefore i hi
    omega
  · have hfail : ∀ c ∈ js.map (extendedLine,·), attempt names page c k = (false,k) := by
      intro c hc
      obtain ⟨i,hi,rfl⟩ := List.mem_map.mp hc
      rw [attempt_extended,Bool.eq_false_iff.mpr fun hfits => hfound ⟨i,hi,hfits⟩]
    rw [examined_append hfail]
    refine iff_of_false (fun h => ?_) fun h => ?_
    · exact Nat.not_lt.mpr hlast (h.2.1.1 _ (headerReads_naa (naaRead_extended hnaa)))
    · obtain ⟨i,hi,hlt,hfits⟩ := h.1
      rcases List.mem_append.mp hi with hi | hi
      · exact hfound ⟨i,hi,hfits⟩
      · exact Nat.ne_of_lt hlt (List.mem_singleton.mp hi)

theorem examined_iff : Examined names page (candidates page) k ↔ WalkRight names page k := by
  have hfirst : (∀ c ∈ (walk page 4).map (tgtgroupLine,·), StepRight page c false) ↔ ∀ j ∈ walk page 4,
      j+3 < scsiInqBuffLen ∧ (fits page j tgtgroupLine = true → j+7 < scsiInqBuffLen ∧ Within page j) := by
    rw [List.forall_mem_map]
    exact forall₂_congr fun j _ => step_tgtgroup j
  have hfails : ∀ c ∈ (walk page 4).map (tgtgroupLine,·), attempt names page c k = (false,k) := by
    intro c hc
    obtain ⟨j,-,rfl⟩ := List.mem_map.mp hc
    exact attempt_tgtgroup j
  rw [candidates_eq,examined_append hfails,hfirst]
  by_cases hheaders : ∀ j ∈ walk page 4, j+3 < scsiInqBuffLen
  · by_cases hlast : ∃ j ∈ walk page 4, naaDescriptor page j ∧ scsiInqBuffLen ≤ j+4
    · obtain ⟨j,hj,hnaa,hend⟩ := hlast
      rw [examined_last hheaders hj hnaa hend]
      refine ⟨fun h => ⟨hheaders,fun i hi hdesc => ?_,fun i hi => (h.1 i hi).2,h.2.2⟩,fun h =>
        ⟨fun i hi => ⟨hheaders i hi,h.groups i hi⟩,?_,h.identifier⟩⟩
      · rw [or_iff_not_imp_left]
        intro hover
        have hi' := hheaders i hi
        have hj' := hheaders j hj
        obtain rfl : i = j := by omega
        exact h.2.1
      · exact (h.naa j hj hnaa).resolve_left (Nat.not_lt.mpr hend)
    · have hinside : ∀ j ∈ walk page 4, naaDescriptor page j → j+4 < scsiInqBuffLen := fun j hj hnaa =>
        Nat.lt_of_not_le fun hend => hlast ⟨j,hj,hnaa,hend⟩
      have hlater : ∀ c ∈ (walk page 4).map (extendedLine,·) ++ laterCandidates page, StepRight page c false := by
        intro c hc
        obtain ⟨hline,hwalk⟩ := mem_later hc
        exact (step_failed (hheaders _ hwalk) (later_lines _ hline)).mpr fun hread =>
          hinside _ hwalk (naaRead_later hline hread)
      rw [examined_taken hlater fun c hc => later_lines _ (mem_later hc).1,← taken_eq]
      exact ⟨fun h => ⟨hheaders,fun j hj hnaa => Or.inl (hinside j hj hnaa),fun j hj => (h.1 j hj).2,h.2⟩,fun h =>
        ⟨fun j hj => ⟨hheaders j hj,h.groups j hj⟩,h.identifier⟩⟩
  · exact iff_of_false (fun h => hheaders fun j hj => (h.1 j hj).1) fun h => hheaders h.headers

section Inquiry

theorem bounded_start {dev : ScsiIdDevice} {l : List ℕ} (hl : ∀ i ∈ l, i < scsiInqBuffLen) :
    Scan.Bounded page { dev, reads := l } := ⟨hl,fun _ hj => absurd hj List.not_mem_nil⟩

theorem prespc3_length (page : Memory) (j : ℕ) : (prespc3Bytes page j).length ≤ 127 := by
  have hroom := prespc3_room page j
  rw [maxSerialLen] at hroom
  omega

theorem prespc3_bounded {st : Scan} (h : st.Bounded page) : (checkFill0x83Prespc3 page st).Bounded page := by
  rw [checkFill0x83Prespc3,Scan.bounded_dev,Scan.bounded_read]
  refine ⟨h,fun i hi => ?_⟩
  rcases List.mem_cons.mp hi with rfl | hi
  · decide
  · have hlen := prespc3_length page ((st.dev.serial.write 0 [hexStr scsiIdTgtgroup]).strlen 0)
    have hlt := (List.mem_range'_1.mp hi).2
    rw [scsiInqBuffLen]
    omega

theorem page83_bounded (reply80 : Option Memory) {dev : ScsiIdDevice} (hleft : Left names k dev.serial) :
    (doScsiPage83Inquiry names reply80 (some page) dev).2.Bounded page ↔
      (page 1 = 0x83 → page 6 = 0 → WalkRight names page k) := by
  rw [doScsiPage83Inquiry]
  by_cases hpage : page 1 = 0x83
  · by_cases hspc : page 6 = 0
    · simp only [hpage,hspc,ne_eq,not_true,if_false,true_implies]
      rw [search_pairs,searchLoop]
      refine (search_bounded (candidates page) hleft).trans ?_
      rw [examined_iff]
      exact and_iff_right (bounded_start (by decide))
    · simp only [hpage,hspc,ne_eq,not_true,not_false_iff,if_false,if_true,true_implies,false_implies,iff_true]
      exact prespc3_bounded (bounded_start (by decide))
  · simp only [hpage,ne_eq,not_false_iff,if_true,false_implies,iff_true]
    exact bounded_start (by decide)

end Inquiry

/-- The walk over the descriptors of a reply always ends. It reads only inside the buffer and takes only descriptors that
lie in the page if and only if the headers lie in the buffer, a network address at its end is not looked at, and
the descriptors whose content is taken lie in the page. -/
theorem page83_walk (reply80 : Option Memory) (page : Memory) (dev : ScsiIdDevice) (hleft : Left names k dev.serial) :
    (walk page 4).length ≤ 64 ∧
      ((doScsiPage83Inquiry names reply80 (some page) dev).2.Bounded page ↔
        (page 1 = 0x83 → page 6 = 0 → WalkRight names page k)) := by
  refine ⟨?_,page83_bounded reply80 hleft⟩
  have hlen := walk_length page 4
  have hbyte := (page 3).toNat_lt
  omega

/-- A page with one network address. -/
theorem page83_walk_naa : (doScsiPage83Inquiry fullNames none
    (some (charAt [0,0x83,0,12,1,3,0,8,0x60,1,2,3,4,5,6,7])) {}).2.Bounded
      (charAt [0,0x83,0,12,1,3,0,8,0x60,1,2,3,4,5,6,7]) := by
  have hwalk : walk (charAt [0,0x83,0,12,1,3,0,8,0x60,1,2,3,4,5,6,7]) 4 = [4] := by
    rw [walk,if_pos (by decide),walk,if_neg (by decide)]
  have htaken : (taken fullNames (charAt [0,0x83,0,12,1,3,0,8,0x60,1,2,3,4,5,6,7]) 0).1 = some (extendedLine,4) := by
    rw [taken,candidates,hwalk]
    decide
  refine (page83_walk none _ {} left_zero).2.mpr fun _ _ => ⟨?_,?_,?_,?_⟩
  · rw [hwalk]
    decide
  · rw [hwalk]
    exact fun j hj _ => Or.inl (by rw [List.mem_singleton.mp hj]; decide)
  · rw [hwalk]
    decide
  · intro c hc
    obtain rfl := Option.some.inj (htaken.symm.trans hc)
    decide

/-- A descriptor of 249 bytes leaves one byte of a page of 250, and the header that begins with it is read. -/
theorem page83_walk_header : ¬∀ names page, (doScsiPage83Inquiry names none (some page) {}).2.Bounded page := by
  intro h
  have hright := (page83_bounded (k := 0) none left_zero).mp (h fullNames (charAt [0,0x83,0,250,1,3,0,245]))
  have hmem : 253 ∈ walk (charAt [0,0x83,0,250,1,3,0,245]) 4 := by
    rw [walk,if_pos (by decide)]
    refine List.mem_cons_of_mem _ ?_
    rw [walk,if_pos (by decide)]
    exact List.mem_cons_self
  have hheader := (hright (by decide) (by decide)).headers 253 hmem
  exact absurd hheader (by decide)

end Page

end Scsi
end Udev
