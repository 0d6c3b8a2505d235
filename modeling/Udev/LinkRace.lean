import Udev.Symlinks

/-! Two workers add devices that claim one link at the same time. Each looks for other
claimants, makes the link, registers its claim and at last writes the database, and
nothing keeps the steps of the two apart. -/
namespace Udev
namespace LinkRace

open CString Text DevPath Symlinks

/-- The worker of the device of the higher priority, and the one of the other device. -/
inductive Worker
  | high | low
  deriving DecidableEq, Repr

def Worker.other : Worker → Worker
  | high => low
  | low => high

/-- The file system, the target that each worker has found, and the steps it has done. -/
structure Race where
  sys : Sys
  target : Worker → Option CString := fun _ => none
  pc : Worker → ℕ := fun _ => 0

/-- How far the workers are, the claimants that each has found, and which one made the link last. -/
structure Progress where
  pc : Worker → ℕ := fun _ => 0
  found : Worker → List (CString × ℤ) := fun _ => []
  last : Option Worker := none

section Model

variable (dev : Worker → Device) (slink : CString)

/-- The next step of a worker: the scan, the link and the claim file of `link_update`,
and the database file after it. -/
def step (r : Race) (x : Env × Worker) : Race :=
  let d := dev x.2
  let pc := Function.update r.pc x.2 (r.pc x.2+1)
  match r.pc x.2 with
  | 0 => { r with pc := pc, target := Function.update r.target x.2 (scan x.1 r.sys d slink true) }
  | 1 => { r with pc := pc, sys := link x.1 r.sys d slink (r.target x.2) }
  | 2 => { r with pc := pc, sys := register r.sys d slink }
  | 3 =>
    { r with
      pc := pc
      sys := { r.sys with
        records := Function.update r.sys.records (devnum d) (some ⟨d.devnode,d.devlinkPriority,names d⟩) } }
  | _ => { r with pc := pc }

def race (s : Sys) (xs : List (Env × Worker)) : Race := xs.foldl (step dev slink) { sys := s }

variable (node : Worker → CString) (old : Worker → ℤ) (s : Sys)

/-- Two different devices whose nodes are there. Other devices may claim the link as well, and the
two may have claimed it before. -/
structure Start : Prop where
  subsystem : ∀ w, (dev w).subsystem.isSome
  major : ∀ w, major (dev w).devnum > 0
  devnode : ∀ w, (dev w).devnode = some (node w)
  reaches : ∀ w, Reaches (node w) slink
  normal : Normal slink
  id : devnum (dev .high) ≠ devnum (dev .low)
  nodes : node .high ≠ node .low
  priority : (dev .low).devlinkPriority < (dev .high).devlinkPriority
  record : ∀ w, ∃ links, s.records (devnum (dev w)) = some ⟨some (node w),old w,links⟩
  others : ∀ id ∈ s.claims (linkDir slink), (∀ w, id ≠ devnum (dev w)) → ∀ r n, s.records id = some r →
    r.devnode = some n → Reaches n slink ∧ n ≠ node .high

/-- The priority that the database has for a device after some steps of its worker. -/
def priorityAt (w : Worker) (n : ℕ) : ℤ := if 4 ≤ n then (dev w).devlinkPriority else old w

/-- The claim directory as a worker meets it that has not yet registered, after some steps of the other one. -/
def claimsAt (w : Worker) (n : ℕ) : List CString :=
  if 3 ≤ n then (s.claims (linkDir slink)).insert (devnum (dev w.other)) else s.claims (linkDir slink)

/-- The node and the priority behind a claim file, after some steps of the other worker. -/
def claimant (w : Worker) (n : ℕ) (id : CString) : Option (CString × ℤ) :=
  if charAt id 0 = chr '.' ∨ id = devnum (dev w) then none
  else if id = devnum (dev w.other) then some (node w.other,priorityAt dev old w.other n)
  else (s.records id).bind fun r => r.devnode.map (·,r.priority)

def claimants (env : Env) (w : Worker) (n : ℕ) : List (CString × ℤ) :=
  (env.readdir (linkDir slink) (claimsAt dev slink s w n)).filterMap (claimant dev node old s w n)

def Progress.step (p : Progress) (x : Env × Worker) : Progress where
  pc := Function.update p.pc x.2 (p.pc x.2+1)
  found :=
    if p.pc x.2 = 0 then
      Function.update p.found x.2 (claimants dev slink node old s x.1 x.2 (p.pc x.2.other))
    else p.found
  last := if p.pc x.2 = 1 then some x.2 else p.last

/-- The progress after some steps of the two workers. -/
def progress (xs : List (Env × Worker)) : Progress := xs.foldl (Progress.step dev slink node old s) {}

def chosen (w : Worker) (cs : List (CString × ℤ)) : Option CString :=
  (cs.foldl better (some (node w,(dev w).devlinkPriority))).map (·.1)

structure Sim (p : Progress) (r : Race) : Prop where
  pc : r.pc = p.pc
  claims : ∀ w, p.pc w ≤ 2 → r.sys.claims (linkDir slink) = claimsAt dev slink s w (p.pc w.other)
  record : ∀ w, ∃ links, r.sys.records (devnum (dev w)) = some ⟨some (node w),priorityAt dev old w (p.pc w),links⟩
  others : ∀ id, (∀ w, id ≠ devnum (dev w)) → r.sys.records id = s.records id
  found : ∀ w, ∀ c ∈ p.found w, Reaches c.1 slink ∧ (w = .high → c.1 ≠ node .high)
  target : ∀ w, 1 ≤ p.pc w → r.target w = chosen dev node w (p.found w)
  last : ∀ w, p.last = some w → 2 ≤ p.pc w ∧
    r.sys.links slink = (chosen dev node w (p.found w)).bind (pathRelative · slink utilPathSize)

end Model

/-- The fold takes the first claimant of the highest priority, if that is above the one it starts with. -/
theorem foldl_better_iff (b m : CString × ℤ) (cs : List (CString × ℤ)) :
    cs.foldl better (some b) = some m ↔
      m = b ∧ (∀ c ∈ cs, c.2 ≤ b.2) ∨
        ∃ before after, cs = before ++ m::after ∧ b.2 < m.2 ∧ (∀ c ∈ before, c.2 < m.2) ∧ ∀ c ∈ after, c.2 ≤ m.2 := by
  induction cs generalizing b with
  | nil => simp [eq_comm]
  | cons c cs ih =>
    by_cases hgt : c.2 > b.2
    · have hfold : (c::cs).foldl better (some b) = cs.foldl better (some c) := by simp [better,hgt]
      rw [hfold,ih c]
      constructor
      · rintro (⟨rfl,hmax⟩ | ⟨before,after,rfl,hlt,hbefore,hafter⟩)
        · exact Or.inr ⟨[],cs,rfl,hgt,by simp,hmax⟩
        · exact Or.inr ⟨c::before,after,rfl,by omega,List.forall_mem_cons.mpr ⟨hlt,hbefore⟩,hafter⟩
      · rintro (⟨-,hmax⟩ | ⟨before,after,hcs,-,hbefore,hafter⟩)
        · exact absurd (hmax c List.mem_cons_self) (by omega)
        · cases before with
          | nil =>
            obtain ⟨rfl,rfl⟩ := List.cons.inj hcs
            exact Or.inl ⟨rfl,hafter⟩
          | cons d before =>
            obtain ⟨rfl,rfl⟩ := List.cons.inj hcs
            obtain ⟨hlt,hbefore⟩ := List.forall_mem_cons.mp hbefore
            exact Or.inr ⟨before,after,rfl,hlt,hbefore,hafter⟩
    · have hfold : (c::cs).foldl better (some b) = cs.foldl better (some b) := by simp [better,hgt]
      rw [hfold,ih b]
      constructor
      · rintro (⟨rfl,hmax⟩ | ⟨before,after,rfl,hlt,hbefore,hafter⟩)
        · exact Or.inl ⟨rfl,List.forall_mem_cons.mpr ⟨by omega,hmax⟩⟩
        · exact Or.inr ⟨c::before,after,rfl,hlt,List.forall_mem_cons.mpr ⟨by omega,hbefore⟩,hafter⟩
      · rintro (⟨rfl,hmax⟩ | ⟨before,after,hcs,hlt,hbefore,hafter⟩)
        · exact Or.inl ⟨rfl,(List.forall_mem_cons.mp hmax).2⟩
        · cases before with
          | nil =>
            obtain ⟨rfl,rfl⟩ := List.cons.inj hcs
            exact absurd hlt hgt
          | cons d before =>
            obtain ⟨rfl,rfl⟩ := List.cons.inj hcs
            exact Or.inr ⟨before,after,rfl,hlt,(List.forall_mem_cons.mp hbefore).2,hafter⟩

theorem chosen_eq_some {dev : Worker → Device} {node : Worker → CString} {w : Worker} {cs : List (CString × ℤ)}
    {n : CString} :
    chosen dev node w cs = some n ↔
      n = node w ∧ (∀ c ∈ cs, c.2 ≤ (dev w).devlinkPriority) ∨
        ∃ before priority after, cs = before ++ (n,priority)::after ∧ (dev w).devlinkPriority < priority ∧
          (∀ c ∈ before, c.2 < priority) ∧ ∀ c ∈ after, c.2 ≤ priority := by
  rw [chosen,Option.map_eq_some_iff]
  constructor
  · rintro ⟨m,hfold,rfl⟩
    rcases (foldl_better_iff _ m cs).mp hfold with ⟨rfl,hmax⟩ | ⟨before,after,hcs,h⟩
    · exact Or.inl ⟨rfl,hmax⟩
    · exact Or.inr ⟨before,m.2,after,hcs,h⟩
  · rintro (⟨rfl,hmax⟩ | ⟨before,priority,after,hcs,h⟩)
    · exact ⟨_,(foldl_better_iff _ _ cs).mpr (Or.inl ⟨rfl,hmax⟩),rfl⟩
    · exact ⟨(n,priority),(foldl_better_iff _ _ cs).mpr (Or.inr ⟨before,after,hcs,h⟩),rfl⟩

section Steps

variable {dev : Worker → Device} {slink : CString} {node : Worker → CString} {old : Worker → ℤ} {s : Sys}
  (hs : Start dev slink node old s)
include hs

theorem devnum_inj {w w' : Worker} (h : devnum (dev w) = devnum (dev w')) : w = w' := by
  cases w <;> cases w' <;> first | rfl | exact absurd h hs.id | exact absurd h.symm hs.id

omit hs in
theorem Worker.eq_other {w w' : Worker} (h : w' ≠ w) : w' = w.other := by
  cases w <;> cases w' <;> first | rfl | exact absurd rfl h

omit hs in
theorem others_claim {w : Worker} {n : ℕ} {id : CString} (hid : id ∈ claimsAt dev slink s w n)
    (hself : id ≠ devnum (dev w)) (hother : id ≠ devnum (dev w.other)) :
    id ∈ s.claims (linkDir slink) ∧ ∀ w', id ≠ devnum (dev w') := by
  refine ⟨?_,?_⟩
  · unfold claimsAt at hid
    split_ifs at hid
    · exact (List.mem_insert_iff.mp hid).resolve_left hother
    · exact hid
  · intro w'
    by_cases hw : w' = w
    · exact hw ▸ hself
    · exact Worker.eq_other hw ▸ hother

theorem claimants_ok (env : Env) (w : Worker) (n : ℕ) :
    ∀ c ∈ claimants dev slink node old s env w n, Reaches c.1 slink ∧ (w = .high → c.1 ≠ node .high) := by
  intro c hc
  obtain ⟨id,hid,hc⟩ := List.mem_filterMap.mp hc
  have hclaim := (env.perm _ _).mem_iff.mp hid
  unfold claimant at hc
  split_ifs at hc with hskip hother
  · obtain rfl := Option.some.inj hc
    refine ⟨hs.reaches _,?_⟩
    rintro rfl
    exact hs.nodes.symm
  · obtain ⟨hbefore,hnew⟩ := others_claim hclaim (not_or.mp hskip).2 hother
    obtain ⟨r,hr,hnode⟩ := Option.bind_eq_some_iff.mp hc
    obtain ⟨n,hn,rfl⟩ := Option.map_eq_some_iff.mp hnode
    obtain ⟨hreaches,hne⟩ := hs.others id hbefore hnew r n hr hn
    exact ⟨hreaches,fun _ => hne⟩

theorem scan_race {p : Progress} {r : Race} (hsim : Sim dev slink node old s p r) (env : Env) {w : Worker}
    (hpc : p.pc w = 0) :
    scan env r.sys (dev w) slink true = chosen dev node w (claimants dev slink node old s env w (p.pc w.other)) := by
  have hcopy : ∀ {n : CString}, Reaches n slink → strscpy utilPathSize n = n := fun h => strscpy_fits h.2.1
  have hclaims := hsim.claims w (by omega)
  have hcs : (env.readdir (linkDir slink) (r.sys.claims (linkDir slink))).filterMap
      (candidate r.sys (devnum (dev w))) = claimants dev slink node old s env w (p.pc w.other) := by
    rw [hclaims,claimants]
    refine List.filterMap_congr fun id hid => ?_
    have hclaim := (env.perm _ _).mem_iff.mp hid
    unfold candidate claimant
    split_ifs with hskip hother
    · rfl
    · obtain ⟨links,hrec⟩ := hsim.record w.other
      rw [hother,hrec]
      simp [hcopy (hs.reaches _)]
    · obtain ⟨hbefore,hnew⟩ := others_claim hclaim (not_or.mp hskip).2 hother
      rw [hsim.others id hnew]
      cases hr : s.records id with
      | none => rfl
      | some r =>
        cases hn : r.devnode with
        | none => simp only [Option.bind_some,hn,Option.map_none]
        | some n => simp [hn,hcopy (hs.others id hbefore hnew r n hr hn).1]
  have hscan : scan env r.sys (dev w) slink true =
      (((env.readdir (linkDir slink) (r.sys.claims (linkDir slink))).filterMap
        (candidate r.sys (devnum (dev w)))).foldl better (some (node w,(dev w).devlinkPriority))).map (·.1) := by
    simp only [scan,linkFindPrioritized,hs.devnode w,Option.map_some,hcopy (hs.reaches w),if_true]
  rw [hscan,hcs,chosen]

theorem chosen_reaches {w : Worker} {cs : List (CString × ℤ)} (hcs : ∀ c ∈ cs, Reaches c.1 slink) :
    ∃ n content, chosen dev node w cs = some n ∧ Reaches n slink ∧ pathRelative n slink utilPathSize = some content := by
  obtain ⟨b,hfold,hb,-⟩ := foldl_better (node w,(dev w).devlinkPriority) cs
  have hreaches : Reaches b.1 slink := by
    rcases hb with rfl | ⟨hb,-⟩
    · exact hs.reaches w
    · exact hcs b hb
  obtain ⟨content,hcontent⟩ := Option.isSome_iff_exists.mp hreaches.2.2
  exact ⟨b.1,content,by rw [chosen,hfold]; rfl,hreaches,hcontent⟩

end Steps

section Keep

variable {dev : Worker → Device} {slink : CString} {node : Worker → CString} {old : Worker → ℤ} {s : Sys}
  {p : Progress} {r : Race} (hsim : Sim dev slink node old s p r) (x : Env × Worker)

theorem found_keep {w : Worker} (hpc : 1 ≤ p.pc w) : (p.step dev slink node old s x).found w = p.found w := by
  simp only [Progress.step]
  split_ifs with hn
  · rw [Function.update_of_ne]
    rintro rfl
    omega
  · rfl

include hsim

theorem claims_keep (hn : p.pc x.2 ≠ 2) (w : Worker) (hw : (p.step dev slink node old s x).pc w ≤ 2) :
    r.sys.claims (linkDir slink) = claimsAt dev slink s w ((p.step dev slink node old s x).pc w.other) := by
  have hle : p.pc w ≤ (p.step dev slink node old s x).pc w := by
    simp only [Progress.step]
    rcases eq_or_ne w x.2 with rfl | hne
    · simp
    · rw [Function.update_of_ne hne]
  rw [hsim.claims w (hle.trans hw)]
  simp only [Progress.step]
  rcases eq_or_ne w.other x.2 with heq | hne
  · have hiff : 3 ≤ p.pc w.other+1 ↔ 3 ≤ p.pc w.other := by
      rw [heq]
      omega
    rw [← heq,Function.update_self]
    simp only [claimsAt,hiff]
  · rw [Function.update_of_ne hne]

theorem record_keep (hn : p.pc x.2 ≠ 3) (w : Worker) : ∃ links, r.sys.records (devnum (dev w)) =
    some ⟨some (node w),priorityAt dev old w ((p.step dev slink node old s x).pc w),links⟩ := by
  have hsame : priorityAt dev old w ((p.step dev slink node old s x).pc w) = priorityAt dev old w (p.pc w) := by
    simp only [Progress.step]
    rcases eq_or_ne w x.2 with rfl | hne
    · have hiff : 4 ≤ p.pc x.2+1 ↔ 4 ≤ p.pc x.2 := by omega
      simp only [Function.update_self,priorityAt,hiff]
    · rw [Function.update_of_ne hne]
  rw [hsame]
  exact hsim.record w

theorem target_keep (hn : p.pc x.2 ≠ 0) (w : Worker) (hpc : 1 ≤ (p.step dev slink node old s x).pc w) :
    r.target w = chosen dev node w ((p.step dev slink node old s x).found w) := by
  have hbefore : 1 ≤ p.pc w := by
    rcases eq_or_ne w x.2 with rfl | hne
    · omega
    · simpa only [Progress.step,Function.update_of_ne hne] using hpc
  rw [found_keep x hbefore]
  exact hsim.target w hbefore

theorem last_keep (hn : p.pc x.2 ≠ 1) (w : Worker) (hlast : (p.step dev slink node old s x).last = some w) :
    2 ≤ (p.step dev slink node old s x).pc w ∧ r.sys.links slink =
      (chosen dev node w ((p.step dev slink node old s x).found w)).bind (pathRelative · slink utilPathSize) := by
  have hbefore : p.last = some w := by simpa only [Progress.step,if_neg hn] using hlast
  obtain ⟨hpc,hlink⟩ := hsim.last w hbefore
  refine ⟨?_,by rw [found_keep x (by omega),hlink]⟩
  simp only [Progress.step]
  rcases eq_or_ne w x.2 with rfl | hne
  · rw [Function.update_self]
    omega
  · rwa [Function.update_of_ne hne]

end Keep

section Run

variable {dev : Worker → Device} {slink : CString} {node : Worker → CString} {old : Worker → ℤ} {s : Sys}
  (hs : Start dev slink node old s)
include hs

theorem found_step {p : Progress} {r : Race} (hsim : Sim dev slink node old s p r) (x : Env × Worker) (w : Worker) :
    ∀ c ∈ (p.step dev slink node old s x).found w, Reaches c.1 slink ∧ (w = .high → c.1 ≠ node .high) := by
  simp only [Progress.step]
  split_ifs
  · rcases eq_or_ne w x.2 with rfl | hne
    · rw [Function.update_self]
      exact claimants_ok hs x.1 x.2 _
    · rw [Function.update_of_ne hne]
      exact hsim.found w
  · exact hsim.found w

theorem sim_step {p : Progress} {r : Race} (hsim : Sim dev slink node old s p r) (x : Env × Worker)
    (henv : x.1.isNode slink = false) :
    Sim dev slink node old s (p.step dev slink node old s x) (step dev slink r x) := by
  have hfound := found_step hs hsim x
  have hclaims := claims_keep hsim x
  have hrecord := record_keep hsim x
  have htarget := target_keep hsim x
  have hlast := last_keep hsim x
  obtain ⟨env,w⟩ := x
  have hcases : p.pc w = 0 ∨ p.pc w = 1 ∨ p.pc w = 2 ∨ p.pc w = 3 ∨ 4 ≤ p.pc w := by omega
  rcases hcases with hn | hn | hn | hn | hn
  · have hstep : step dev slink r (env,w) =
        { r with
          pc := (p.step dev slink node old s (env,w)).pc
          target := Function.update r.target w (scan env r.sys (dev w) slink true) } := by
      simp only [step,hsim.pc,Progress.step,hn]
    rw [hstep]
    refine ⟨rfl,hclaims (by simp [hn]),hrecord (by simp [hn]),hsim.others,hfound,?_,hlast (by simp [hn])⟩
    intro w' hw'
    rcases eq_or_ne w' w with rfl | hne
    · simp only [Progress.step,Function.update_self,if_pos hn]
      exact scan_race hs hsim env hn
    · simp only [Progress.step,Function.update_of_ne hne,if_pos hn] at hw' ⊢
      exact hsim.target w' hw'
  · have hstep : step dev slink r (env,w) =
        { r with
          pc := (p.step dev slink node old s (env,w)).pc
          sys := link env r.sys (dev w) slink (r.target w) } := by
      simp only [step,hsim.pc,Progress.step,hn]
    rw [hstep]
    refine ⟨rfl,hclaims (by simp [hn]),hrecord (by simp [hn]),hsim.others,hfound,htarget (by simp [hn]),?_⟩
    intro w' hw'
    obtain rfl : w = w' := by simpa only [Progress.step,if_pos hn,Option.some.injEq] using hw'
    obtain ⟨n,content,hchosen,-,hcontent⟩ := chosen_reaches hs (w := w) fun c hc => (hsim.found w c hc).1
    refine ⟨by simp [Progress.step,hn],?_⟩
    rw [found_keep _ (by omega),hchosen,Option.bind_some,hcontent,hsim.target w (by omega),hchosen]
    exact nodeSymlink_self hs.normal r.sys.links (devnum (dev w)) henv hcontent
  · have hstep : step dev slink r (env,w) =
        { r with pc := (p.step dev slink node old s (env,w)).pc, sys := register r.sys (dev w) slink } := by
      simp only [step,hsim.pc,Progress.step,hn]
    rw [hstep]
    refine ⟨rfl,?_,hrecord (by simp [hn]),hsim.others,hfound,htarget (by simp [hn]),hlast (by simp [hn])⟩
    intro w' hw'
    simp only [Progress.step] at hw' ⊢
    rcases eq_or_ne w' w with rfl | hne
    · rw [Function.update_self] at hw'
      omega
    · obtain rfl := Worker.eq_other hne.symm
      rw [Function.update_of_ne hne] at hw'
      simp only [register,Function.update_self,hsim.claims w' hw',claimsAt,hn]
      simp
  · have hstep : step dev slink r (env,w) =
        { r with
          pc := (p.step dev slink node old s (env,w)).pc
          sys := { r.sys with
            records := Function.update r.sys.records (devnum (dev w))
              (some ⟨(dev w).devnode,(dev w).devlinkPriority,names (dev w)⟩) } } := by
      simp only [step,hsim.pc,Progress.step,hn]
    rw [hstep]
    refine ⟨rfl,hclaims (by simp [hn]),?_,?_,hfound,htarget (by simp [hn]),hlast (by simp [hn])⟩
    · intro w'
      rcases eq_or_ne w' w with rfl | hne
      · refine ⟨names (dev w'),?_⟩
        simp [Progress.step,hn,priorityAt,hs.devnode]
      · simp only [Progress.step,Function.update_of_ne hne,Function.update_of_ne fun h => hne (devnum_inj hs h)]
        exact hsim.record w'
    · intro id hid
      simp only [Function.update_of_ne (hid w)]
      exact hsim.others id hid
  · have hstep : step dev slink r (env,w) = { r with pc := (p.step dev slink node old s (env,w)).pc } := by
      obtain ⟨k,hk⟩ : ∃ k, p.pc w = k+4 := ⟨p.pc w-4,by omega⟩
      simp only [step,hsim.pc,Progress.step,hk]
    rw [hstep]
    exact ⟨rfl,hclaims (by simp only; omega),hrecord (by simp only; omega),hsim.others,hfound,
      htarget (by simp only; omega),hlast (by simp only; omega)⟩

theorem sim_race (xs : List (Env × Worker)) (henv : ∀ x ∈ xs, x.1.isNode slink = false) :
    Sim dev slink node old s (progress dev slink node old s xs) (race dev slink s xs) := by
  induction xs using List.reverseRecOn with
  | nil =>
    refine ⟨rfl,?_,?_,fun _ _ => rfl,?_,?_,?_⟩
    · intro w _
      simp [race,progress,claimsAt]
    · intro w
      simpa [race,progress,priorityAt] using hs.record w
    · simp [progress]
    · simp [progress]
    · simp [progress]
  | append_singleton xs x ih =>
    have hsim := ih fun y hy => henv y (List.mem_append_left _ hy)
    have hstep := sim_step hs hsim x (henv x (by simp))
    simpa [race,progress] using hstep

end Run

section Done

variable {dev : Worker → Device} {slink : CString} {node : Worker → CString} {old : Worker → ℤ} {s : Sys}

theorem progress_concat (xs : List (Env × Worker)) (x : Env × Worker) :
    progress dev slink node old s (xs ++ [x]) = (progress dev slink node old s xs).step dev slink node old s x := by
  simp [progress]

theorem pc_progress (xs : List (Env × Worker)) (w : Worker) :
    (progress dev slink node old s xs).pc w = (xs.map (·.2)).count w := by
  induction xs using List.reverseRecOn with
  | nil => rfl
  | append_singleton xs x ih =>
    rw [progress_concat,List.map_append,List.count_append,← ih,Progress.step]
    by_cases hw : w = x.2
    · subst hw
      simp
    · simp [Function.update_of_ne hw,Ne.symm hw]

theorem last_progress {xs : List (Env × Worker)} {w : Worker} (h : 2 ≤ (xs.map (·.2)).count w) :
    ∃ w', (progress dev slink node old s xs).last = some w' := by
  induction xs using List.reverseRecOn with
  | nil => simp at h
  | append_singleton xs x ih =>
    have hstep : (progress dev slink node old s (xs ++ [x])).last =
        if (progress dev slink node old s xs).pc x.2 = 1 then some x.2 else (progress dev slink node old s xs).last := by
      rw [progress_concat]
      rfl
    rw [hstep,pc_progress]
    split_ifs with hx
    · exact ⟨x.2,rfl⟩
    · refine ih ?_
      rw [List.map_append,List.count_append] at h
      by_cases hw : w = x.2
      · subst hw
        rw [List.map_singleton,List.count_singleton_self] at h
        omega
      · simpa [Ne.symm hw] using h

end Done

/-- When both workers are done, the link leads to the device of the higher priority exactly if its worker
made the link last and found no claimant above it, or if the other worker made it last and that device was
the first of the highest priority among the claimants that it found, and above its own. -/
theorem race_won_iff {dev : Worker → Device} {slink : CString} {node : Worker → CString} {old : Worker → ℤ} {s : Sys}
    (hs : Start dev slink node old s) (xs : List (Env × Worker)) (henv : ∀ x ∈ xs, x.1.isNode slink = false)
    (hdone : ∀ w, 3 ≤ (xs.map (·.2)).count w) :
    (∃ content, (race dev slink s xs).sys.links slink = some content ∧ resolve slink content = node .high) ↔
      (progress dev slink node old s xs).last = some .high ∧
          (∀ c ∈ (progress dev slink node old s xs).found .high, c.2 ≤ (dev .high).devlinkPriority) ∨
        (progress dev slink node old s xs).last = some .low ∧
          ∃ before priority after,
            (progress dev slink node old s xs).found .low = before ++ (node .high,priority)::after ∧
              (dev .low).devlinkPriority < priority ∧ (∀ c ∈ before, c.2 < priority) ∧ ∀ c ∈ after, c.2 ≤ priority := by
  have hsim := sim_race hs xs henv
  obtain ⟨w,hlast⟩ := last_progress (Nat.le_of_succ_le (hdone .high))
  obtain ⟨-,hlink⟩ := hsim.last w hlast
  obtain ⟨n,content,hchosen,hreaches,hcontent⟩ := chosen_reaches hs (w := w) fun c hc => (hsim.found w c hc).1
  rw [hchosen,Option.bind_some,hcontent] at hlink
  have hresolve := resolve_pathRelative hreaches.1 hs.normal hcontent
  have hpoints : (∃ content, (race dev slink s xs).sys.links slink = some content ∧
      resolve slink content = node .high) ↔ chosen dev node w ((progress dev slink node old s xs).found w) = some (node .high) := by
    rw [hlink,hchosen,Option.some.injEq]
    constructor
    · rintro ⟨content',heq,h⟩
      rw [← Option.some.inj heq,hresolve] at h
      exact h
    · intro h
      exact ⟨content,rfl,hresolve.trans h⟩
  rw [hpoints,hlast,chosen_eq_some]
  cases w with
  | high =>
    have hnone : ∀ before priority after,
        (progress dev slink node old s xs).found .high ≠ before ++ (node .high,priority)::after := by
      intro before priority after hfound
      exact (hsim.found .high (node .high,priority) (by simp [hfound])).2 rfl rfl
    simp [hnone]
  | low => simp [hs.nodes]

/-- A disk of priority 10 and one of priority 0 that claim a link. -/
def twoDisks : Worker → Device
  | .high => disk 0x800 "/dev/sda" [⟨str "/dev/root",none,0⟩] 10
  | .low => disk 0x810 "/dev/sdb" [⟨str "/dev/root",none,0⟩] 0

def twoNodes : Worker → CString
  | .high => str "/dev/sda"
  | .low => str "/dev/sdb"

theorem start_disks {old : Worker → ℤ} {s : Sys}
    (hrecord : ∀ w, ∃ links, s.records (devnum (twoDisks w)) = some ⟨some (twoNodes w),old w,links⟩)
    (hothers : ∀ id ∈ s.claims (linkDir (str "/dev/root")), (∀ w, id ≠ devnum (twoDisks w)) → ∀ r n,
      s.records id = some r → r.devnode = some n → Reaches n (str "/dev/root") ∧ n ≠ twoNodes .high) :
    Start twoDisks (str "/dev/root") twoNodes old s where
  subsystem w := by cases w <;> rfl
  major w := by cases w <;> decide
  devnode w := by cases w <;> rfl
  reaches w := by
    cases w with
    | high => exact ⟨⟨[str "dev",str "sda"],by decide,by decide,by decide⟩,by decide,by decide⟩
    | low => exact ⟨⟨[str "dev",str "sdb"],by decide,by decide,by decide⟩,by decide,by decide⟩
  normal := linkName_root.normal
  id := by decide +kernel
  nodes := by decide
  priority := by decide
  record := hrecord
  others := hothers

/-- The disks are triggered again, with a third one that claims the link as well. -/
def claimedDisks : Sys where
  claims := fun dir => if dir = linkDir (str "/dev/root") then [str "b8:32",str "b8:0",str "b8:16"] else []
  records := fun id =>
    if id = str "b8:0" then some ⟨some (str "/dev/sda"),10,[str "/dev/root"]⟩
    else if id = str "b8:16" then some ⟨some (str "/dev/sdb"),0,[str "/dev/root"]⟩
    else if id = str "b8:32" then some ⟨some (str "/dev/sdc"),5,[str "/dev/root"]⟩
    else none

def claimedPriority : Worker → ℤ
  | .high => 10
  | .low => 0

theorem start_claimedDisks : Start twoDisks (str "/dev/root") twoNodes claimedPriority claimedDisks := by
  refine start_disks ?_ ?_
  · intro w
    cases w <;> exact ⟨[str "/dev/root"],by decide +kernel⟩
  · intro id hid hnew r n hr hn
    have hclaims : claimedDisks.claims (linkDir (str "/dev/root")) = [str "b8:32",str "b8:0",str "b8:16"] := by
      simp [claimedDisks]
    rw [hclaims] at hid
    have hhigh : devnum (twoDisks .high) = str "b8:0" := by decide +kernel
    have hlow : devnum (twoDisks .low) = str "b8:16" := by decide +kernel
    have hthird : id = str "b8:32" := by
      simpa [hhigh ▸ hnew .high,hlow ▸ hnew .low] using hid
    have hrec : claimedDisks.records (str "b8:32") = some ⟨some (str "/dev/sdc"),5,[str "/dev/root"]⟩ := by decide
    rw [hthird,hrec] at hr
    obtain rfl := Option.some.inj hr
    obtain rfl := Option.some.inj hn
    exact ⟨⟨⟨[str "dev",str "sdc"],by decide,by decide,by decide⟩,by decide,by decide⟩,by decide⟩

/-- Both look for claimants before either is registered, and the disk of priority 0 makes
the link last. -/
def together : List (Env × Worker) :=
  [Worker.high,.low,.high,.low,.high,.low,.high,.low].map fun w => (diskEnv,w)

/-- The claims of the time before keep the link with the disk of priority 10. -/
theorem race_won_iff_again :
    ∃ content, (race twoDisks (str "/dev/root") claimedDisks together).sys.links (str "/dev/root") = some content ∧
      resolve (str "/dev/root") content = str "/dev/sda" := by
  refine (race_won_iff start_claimedDisks together (by decide) (by intro w; cases w <;> decide)).mpr (Or.inr ⟨by decide +kernel,?_⟩)
  exact ⟨[(str "/dev/sdc",5)],10,[],by decide +kernel,by decide,by decide,by decide⟩

/-- The disks are there, and the database has nothing about them. -/
def newDisks : Sys where
  records := fun id =>
    if id = str "b8:0" then some ⟨some (str "/dev/sda"),0,[]⟩
    else if id = str "b8:16" then some ⟨some (str "/dev/sdb"),0,[]⟩
    else none

theorem lower_priority_wins :
    Start twoDisks (str "/dev/root") twoNodes (fun _ => 0) newDisks ∧ (∀ w, 3 ≤ (together.map (·.2)).count w) ∧
      (race twoDisks (str "/dev/root") newDisks together).sys.links (str "/dev/root") = some (str "sdb") := by
  refine ⟨start_disks ?_ fun id hid => absurd hid List.not_mem_nil,by intro w; cases w <;> decide,by decide +kernel⟩
  intro w
  cases w <;> exact ⟨[],by decide +kernel⟩

end LinkRace
end Udev
