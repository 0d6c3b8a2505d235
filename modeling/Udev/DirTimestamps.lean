import Mathlib.Data.List.Basic
import Mathlib.Order.MinMax
import Mathlib.Algebra.Order.Ring.Int

/-! Whether the directories of the rules changed. One timestamp stands for all of them: a call tells
whether some directory is later than every directory was at the calls before. -/
namespace Udev
namespace Timestamps

/-- `struct timespec` in a time of modification. -/
structure Timespec where
  sec : ℤ
  nsec : ℕ
  nsec_lt : nsec < 10^9
  deriving DecidableEq

def Timespec.Before (a b : Timespec) : Prop := a.sec < b.sec ∨ a.sec = b.sec ∧ a.nsec < b.nsec

instance (a b : Timespec) : Decidable (a.Before b) := by unfold Timespec.Before; infer_instance

/-- `timespec_load`: microseconds in 64 bits, the largest number for what has no place there. Seconds
before the epoch are large as an unsigned number. -/
def timespecLoad (ts : Timespec) : ℕ :=
  let sec := (ts.sec % 2^64).toNat
  if ts.sec = -1 ∧ (ts.nsec : ℤ) = -1 then 2^64-1
  else if sec > (2^64-1-ts.nsec/1000)/1000000 then 2^64-1
  else sec*1000000+ts.nsec/1000

/-- The paths with the times of those that `stat` finds. -/
abbrev Dirs := List (Option Timespec)

/-- The loop of `paths_check_timestamp`. -/
def checkLoop (update : Bool) : Bool → ℕ → Dirs → Bool × ℕ
  | changed, timestamp, [] => (changed,timestamp)
  | changed, timestamp, none::paths => checkLoop update changed timestamp paths
  | changed, timestamp, some stats::paths =>
    let u := timespecLoad stats
    if timestamp ≥ u then checkLoop update changed timestamp paths
    else if update then checkLoop update true u paths
    else (true,timestamp)

def pathsCheckTimestamp (paths : Dirs) (timestamp : ℕ) (update : Bool) : Bool × ℕ :=
  checkLoop update false timestamp paths

def udevRulesCheckTimestamp (dirs : Dirs) (timestamp : ℕ) : Bool × ℕ := pathsCheckTimestamp dirs timestamp true

/-- A directory gets another time, comes or goes; or the rules are checked. -/
inductive Op where
  | modify (i : ℕ) (dir : Option Timespec)
  | check

/-- The directories, `dirs_ts_usec`, and what the directories were at the calls so far, the last one first. -/
structure State where
  dirs : Dirs
  timestamp : ℕ
  earlier : List Dirs

/-- A call, with the directories at it and at the calls before. -/
structure Call where
  earlier : List Dirs
  now : Dirs
  res : Bool
  deriving DecidableEq

def callsFrom (s : State) : List Op → List Call
  | [] => []
  | .modify i dir::ops => callsFrom { s with dirs := s.dirs.set i dir } ops
  | .check::ops =>
    let r := udevRulesCheckTimestamp s.dirs s.timestamp
    ⟨s.earlier,s.dirs,r.1⟩::callsFrom ⟨s.dirs,r.2,s.dirs::s.earlier⟩ ops

def calls (dirs : Dirs) (ops : List Op) : List Call := callsFrom ⟨dirs,0,[]⟩ ops

/-- Each modification sets an existing directory to a later time. -/
def Later : Dirs → List Op → Prop
  | _, [] => True
  | dirs, .modify i dir::ops =>
    (∃ a b, dirs[i]? = some (some a) ∧ dir = some b ∧ a.Before b) ∧ Later (dirs.set i dir) ops
  | dirs, .check::ops => Later dirs ops

/-- Since the previous call, an existing directory got a later time. -/
def Call.Increased (c : Call) : Prop :=
  ∃ before ∈ c.earlier.head?, ∃ (i : ℕ) (a b : Timespec),
    before[i]? = some (some a) ∧ c.now[i]? = some (some b) ∧ a.Before b

/-- The call returns true for a later time. -/
def Call.Noticed (c : Call) : Prop := c.Increased → c.res = true

def values (dirs : Dirs) : List ℕ := dirs.filterMap (·.map timespecLoad)

/-- A directory is later, in microseconds, than every directory was at the calls before. -/
def Call.Exceeds (c : Call) : Prop := ∃ v ∈ values c.now, ∀ dirs ∈ c.earlier, ∀ w ∈ values dirs, w < v

section Step

theorem checkLoop_values (changed : Bool) (timestamp : ℕ) (dirs : Dirs) :
    ((checkLoop true changed timestamp dirs).1 = true ↔ changed = true ∨ ∃ v ∈ values dirs, timestamp < v) ∧
    ∀ n, (checkLoop true changed timestamp dirs).2 < n ↔ timestamp < n ∧ ∀ v ∈ values dirs, v < n := by
  induction dirs generalizing changed timestamp with
  | nil => simp [checkLoop,values]
  | cons dir dirs ih =>
    cases dir with
    | none => exact ih changed timestamp
    | some stats =>
      have hvalues : values (some stats::dirs) = timespecLoad stats::values dirs := rfl
      rw [hvalues,checkLoop]
      by_cases hle : timestamp ≥ timespecLoad stats
      · rw [if_pos hle]
        obtain ⟨hres,hmax⟩ := ih changed timestamp
        refine ⟨hres.trans ?_,fun n => (hmax n).trans ?_⟩
        · simp only [List.exists_mem_cons_iff,Nat.not_lt.mpr hle,false_or]
        · rw [List.forall_mem_cons]
          exact ⟨fun h => ⟨h.1,lt_of_le_of_lt hle h.1,h.2⟩,fun h => ⟨h.1,h.2.2⟩⟩
      · have hlt := Nat.lt_of_not_le hle
        rw [if_neg hle,if_pos rfl]
        obtain ⟨hres,hmax⟩ := ih true (timespecLoad stats)
        refine ⟨hres.trans ?_,fun n => (hmax n).trans ?_⟩
        · simp only [List.exists_mem_cons_iff,hlt,true_or,or_true]
        · rw [List.forall_mem_cons]
          exact ⟨fun h => ⟨hlt.trans h.1,h⟩,And.right⟩

theorem udevRulesCheckTimestamp_spec (dirs : Dirs) (timestamp : ℕ) :
    ((udevRulesCheckTimestamp dirs timestamp).1 = true ↔ ∃ v ∈ values dirs, timestamp < v) ∧
    ∀ n, (udevRulesCheckTimestamp dirs timestamp).2 < n ↔ timestamp < n ∧ ∀ v ∈ values dirs, v < n := by
  obtain ⟨hres,hmax⟩ := checkLoop_values false timestamp dirs
  exact ⟨hres.trans (or_iff_right Bool.false_ne_true),hmax⟩

def State.Maximal (s : State) : Prop :=
  ∀ n, s.timestamp < n ↔ 0 < n ∧ ∀ dirs ∈ s.earlier, ∀ w ∈ values dirs, w < n

theorem maximal_start (dirs : Dirs) : State.Maximal ⟨dirs,0,[]⟩ := fun _ =>
  ⟨fun hn => ⟨hn,fun _ hmem => absurd hmem List.not_mem_nil⟩,And.left⟩

theorem State.Maximal.check {s : State} (h : s.Maximal) :
    State.Maximal ⟨s.dirs,(udevRulesCheckTimestamp s.dirs s.timestamp).2,s.dirs::s.earlier⟩ := by
  intro n
  rw [(udevRulesCheckTimestamp_spec s.dirs s.timestamp).2 n,h n,List.forall_mem_cons]
  tauto

end Step

/-- Where a directory got a later time, the call tells whether one exceeds all earlier ones. -/
theorem call_res {s : State} (h : s.Maximal)
    (hinc : Call.Increased ⟨s.earlier,s.dirs,(udevRulesCheckTimestamp s.dirs s.timestamp).1⟩) :
    (udevRulesCheckTimestamp s.dirs s.timestamp).1 = true ↔ ∃ v ∈ values s.dirs, ∀ dirs ∈ s.earlier, ∀ w ∈ values dirs, w < v := by
  obtain ⟨before,hbefore,i,a,b,ha,-⟩ := hinc
  rw [(udevRulesCheckTimestamp_spec s.dirs s.timestamp).1]
  have hmem : timespecLoad a ∈ values before :=
    List.mem_filterMap.mpr ⟨some a,List.mem_of_getElem? ha,rfl⟩
  refine exists_congr fun v => and_congr_right fun _ => ?_
  rw [h v]
  refine and_iff_right_of_imp fun hall => ?_
  exact Nat.zero_lt_of_lt (hall before (List.mem_of_mem_head? hbefore) _ hmem)

theorem callsFrom_noticed {s : State} (h : s.Maximal) (ops : List Op) :
    ∀ c ∈ callsFrom s ops, c.Noticed ↔ (c.Increased → c.Exceeds) := by
  induction ops generalizing s with
  | nil => exact fun c hc => absurd hc List.not_mem_nil
  | cons op ops ih =>
    cases op with
    | modify i dir => exact ih (s := { s with dirs := s.dirs.set i dir }) h
    | check =>
      intro c hc
      rcases List.mem_cons.mp hc with rfl | hc
      · exact forall_congr' fun hinc => call_res h hinc
      · exact ih h.check c hc

/-- In a run of modifications and calls, every later time of a directory is noticed if and only if, at each call
where a directory got a later time, some directory exceeds what all of them were at all calls before. -/
theorem rules_check_timestamp (dirs : Dirs) (ops : List Op) :
    (∀ c ∈ calls dirs ops, c.Noticed) ↔ ∀ c ∈ calls dirs ops, c.Increased → c.Exceeds :=
  forall₂_congr (callsFrom_noticed (maximal_start dirs) ops)

/-- An old directory that gets a later time stays behind the others. -/
theorem rules_check_timestamp_old : ¬∀ dirs ops, Later dirs ops → ∀ c ∈ calls dirs ops, c.Noticed := by
  intro hall
  let old : Timespec := ⟨1000,0,by decide⟩
  let later : Timespec := ⟨1500,0,by decide⟩
  let new : Timespec := ⟨2000,0,by decide⟩
  have hlater : Later [some old,some new] [.check,.modify 0 (some later),.check] :=
    ⟨⟨old,later,rfl,rfl,by decide⟩,trivial⟩
  have hmiss : ⟨[[some old,some new]],[some later,some new],false⟩ ∈
      calls [some old,some new] [.check,.modify 0 (some later),.check] := by
    have hcalls : calls [some old,some new] [.check,.modify 0 (some later),.check] =
        [⟨[],[some old,some new],true⟩,⟨[[some old,some new]],[some later,some new],false⟩] := by decide +kernel
    rw [hcalls]
    exact List.mem_cons_of_mem _ (List.mem_singleton_self _)
  have hnoticed := hall _ _ hlater _ hmiss ⟨_,rfl,0,old,later,rfl,rfl,by decide⟩
  cases hnoticed

section Clock

/-- Each modification sets a time that is later, in microseconds, than those of all directories. -/
def Latest : Dirs → List Op → Prop
  | _, [] => True
  | dirs, .modify i dir::ops =>
    (∃ b, dir = some b ∧ ∀ w ∈ values dirs, w < timespecLoad b) ∧ Latest (dirs.set i dir) ops
  | dirs, .check::ops => Latest dirs ops

/-- Nothing changed since the last call, or a directory exceeds all that were there at the calls so far. -/
structure State.InStep (s : State) : Prop where
  behind : ∀ dirs ∈ s.earlier, ∀ w ∈ values dirs, ∃ v ∈ values s.dirs, w ≤ v
  fresh : ∀ before ∈ s.earlier.head?, before = s.dirs ∨ ∃ v ∈ values s.dirs, ∀ dirs ∈ s.earlier, ∀ w ∈ values dirs, w < v

theorem State.InStep.modify {s : State} (h : s.InStep) (i : ℕ) {b : Timespec}
    (hb : ∀ w ∈ values s.dirs, w < timespecLoad b) : State.InStep { s with dirs := s.dirs.set i (some b) } := by
  by_cases hi : i < s.dirs.length
  · have hmem : timespecLoad b ∈ values (s.dirs.set i (some b)) :=
      List.mem_filterMap.mpr ⟨some b,List.mem_set hi _,rfl⟩
    have hlt : ∀ dirs ∈ s.earlier, ∀ w ∈ values dirs, w < timespecLoad b := by
      intro dirs hdirs w hw
      obtain ⟨v,hv,hle⟩ := h.behind dirs hdirs w hw
      exact lt_of_le_of_lt hle (hb v hv)
    exact ⟨fun dirs hdirs w hw => ⟨_,hmem,(hlt dirs hdirs w hw).le⟩,fun _ _ => Or.inr ⟨_,hmem,hlt⟩⟩
  · rw [List.set_eq_of_length_le (Nat.le_of_not_lt hi)]
    exact h

theorem State.InStep.check {s : State} (h : s.InStep) (timestamp : ℕ) :
    State.InStep ⟨s.dirs,timestamp,s.dirs::s.earlier⟩ := by
  constructor
  · intro dirs hdirs w hw
    rcases List.mem_cons.mp hdirs with rfl | hdirs
    · exact ⟨w,hw,le_rfl⟩
    · exact h.behind dirs hdirs w hw
  · intro before hbefore
    exact Or.inl (Option.some_inj.mp hbefore).symm

theorem Timespec.not_before (a : Timespec) : ¬a.Before a := by
  rintro (h | h)
  · exact lt_irrefl _ h
  · exact lt_irrefl _ h.2

theorem State.InStep.exceeds {s : State} (h : s.InStep) {res : Bool} (hinc : Call.Increased ⟨s.earlier,s.dirs,res⟩) :
    Call.Exceeds ⟨s.earlier,s.dirs,res⟩ := by
  obtain ⟨before,hbefore,i,a,b,ha,hb,hlt⟩ := hinc
  refine (h.fresh before hbefore).resolve_left ?_
  rintro rfl
  have hsame : a = b := Option.some_inj.mp (Option.some_inj.mp (ha.symm.trans hb))
  exact a.not_before (hsame ▸ hlt)

theorem callsFrom_exceeds {s : State} {ops : List Op} (h : s.InStep) (hops : Latest s.dirs ops) :
    ∀ c ∈ callsFrom s ops, c.Increased → c.Exceeds := by
  induction ops generalizing s with
  | nil => exact fun c hc => absurd hc List.not_mem_nil
  | cons op ops ih =>
    cases op with
    | modify i dir =>
      obtain ⟨⟨b,rfl,hb⟩,hrest⟩ := hops
      exact ih (h.modify i hb) hrest
    | check =>
      intro c hc
      rcases List.mem_cons.mp hc with rfl | hc
      · exact h.exceeds
      · exact ih (h.check _) hops c hc

/-- Where each modification is made with a clock that goes on, all of them are noticed. -/
theorem noticed_of_latest {dirs : Dirs} {ops : List Op} (h : Latest dirs ops) : ∀ c ∈ calls dirs ops, c.Noticed := by
  have hstart : State.InStep ⟨dirs,0,[]⟩ :=
    ⟨fun _ hmem => absurd hmem List.not_mem_nil,fun _ hmem => nomatch hmem⟩
  intro c hc
  exact (callsFrom_noticed (maximal_start dirs) ops c hc).mpr (callsFrom_exceeds hstart h c hc)

end Clock

end Timestamps
end Udev
