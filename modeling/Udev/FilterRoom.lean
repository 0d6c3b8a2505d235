import Udev.SocketFilter

/-! The array into which the program of a monitor is written. The loop over the tags writes
without a test; the loop over the subsystems tests the room after each match. -/
namespace Udev
namespace SocketFilter

open CString Device Text ClassicBpf Monitor

/-- `ins` with what was stored in it, the place of the next instruction, and the places that
were written. -/
structure InsArray where
  ins : ℕ → Option Insn := fun _ => none
  i : ℕ := 0
  stores : List ℕ := []

namespace InsArray

/-- `bpf_stmt` and `bpf_jmp`; the place is an `unsigned int`. -/
def bpf (a : InsArray) (x : Insn) : InsArray where
  ins := Function.update a.ins a.i (some x)
  i := (a.i+1) % 2^32
  stores := a.stores ++ [a.i]

def emit (a : InsArray) (xs : List Insn) : InsArray := xs.foldl bpf a

def Inside (a : InsArray) : Prop := ∀ k ∈ a.stores, k < 512

def HoldsProgram (a : InsArray) (p : List Insn) : Prop := a.i = p.length ∧ ∀ k < p.length, a.ins k = p[k]?

theorem emit_append (a : InsArray) (xs ys : List Insn) : a.emit (xs ++ ys) = (a.emit xs).emit ys :=
  List.foldl_append

theorem stores_emit (a : InsArray) (xs : List Insn) : a.stores ⊆ (a.emit xs).stores := by
  induction xs generalizing a with
  | nil => exact fun _ hk => hk
  | cons x xs ih => exact fun k hk => ih (a.bpf x) (List.mem_append_left _ hk)

theorem inside_emit {a : InsArray} {xs : List Insn} (ha : a.Inside) (hfit : a.i+xs.length ≤ 512) :
    (a.emit xs).Inside ∧ (a.emit xs).i = a.i+xs.length := by
  induction xs generalizing a with
  | nil => exact ⟨ha,rfl⟩
  | cons x xs ih =>
    rw [List.length_cons] at hfit ⊢
    have hi : (a.bpf x).i = a.i+1 := Nat.mod_eq_of_lt (by omega)
    have hx : (a.bpf x).Inside := by
      intro k hk
      rcases List.mem_append.mp hk with hk | hk
      · exact ha k hk
      · rw [List.mem_singleton.mp hk]
        omega
    obtain ⟨hinside,hend⟩ := ih hx (by omega)
    constructor
    · exact hinside
    · rw [hi] at hend
      show ((a.bpf x).emit xs).i = _
      omega

theorem emit_outside {a : InsArray} {xs : List Insn} (hi : a.i ≤ 512) (hlong : 512 < a.i+xs.length) :
    512 ∈ (a.emit xs).stores := by
  induction xs generalizing a with
  | nil =>
    rw [List.length_nil] at hlong
    omega
  | cons x xs ih =>
    rw [List.length_cons] at hlong
    by_cases hlast : a.i = 512
    · apply stores_emit (a.bpf x) xs
      rw [← hlast]
      exact List.mem_append_right _ (List.mem_singleton_self _)
    · have hnext : (a.bpf x).i = a.i+1 := Nat.mod_eq_of_lt (by omega)
      exact ih (by omega) (by omega)

theorem holdsProgram_emit {a : InsArray} {p xs : List Insn} (ha : a.HoldsProgram p)
    (hfit : p.length+xs.length ≤ 512) : (a.emit xs).HoldsProgram (p ++ xs) := by
  induction xs generalizing a p with
  | nil => rwa [List.append_nil]
  | cons x xs ih =>
    rw [List.length_cons] at hfit
    have hx : (a.bpf x).HoldsProgram (p ++ [x]) := by
      obtain ⟨hi,hins⟩ := ha
      constructor
      · show (a.i+1) % 2^32 = _
        rw [hi,List.length_append,List.length_singleton]
        omega
      · intro k hk
        rw [List.length_append,List.length_singleton] at hk
        show Function.update a.ins a.i (some x) k = _
        by_cases hlast : k = p.length
        · rw [hlast,hi,Function.update_self,List.getElem?_concat_length]
        · rw [hi,Function.update_of_ne hlast,hins k (by omega),List.getElem?_append_left (by omega)]
    rw [List.append_cons]
    exact ih hx (by rw [List.length_append,List.length_singleton]; omega)

end InsArray

open InsArray

section Array

variable (hash : CString → UInt32)

def tagLoop : UdevList → InsArray → InsArray
  | [], a => a
  | e::es, a => tagLoop es (a.emit (tagBlock (utilStringBloom64 hash e.name) es.length))

/-- The loop over the subsystems, and whether it ends with `-E2BIG`. -/
def subsystemLoop : UdevList → InsArray → InsArray × Bool
  | [], a => (a,false)
  | e::es, a =>
    let a := a.emit (subsystemBlock hash e)
    if (a.i+1) % 2^32 ≥ 512 then (a,true) else subsystemLoop es a

/-- `udev_monitor_filter_update` on its array; `attach` is what it returns behind `setsockopt`. -/
def updateRun (attach : InsArray → ℤ) (m : Filter) : InsArray × ℤ :=
  if m.filterSubsystemList = [] ∧ m.filterTagList = [] then ({},0)
  else
    let a := InsArray.emit {} programStart
    let a := if m.filterTagList = [] then a else (tagLoop hash m.filterTagList a).bpf (.ret 0)
    if m.filterSubsystemList = [] then
      let a := a.bpf (.ret pass)
      (a,attach a)
    else
      let r := subsystemLoop hash m.filterSubsystemList a
      if r.2 then (r.1,-7)
      else
        let a := (r.1.bpf (.ret 0)).bpf (.ret pass)
        (a,attach a)

end Array

/-- The number of instructions for the tags. -/
def tagRoom (tags : UdevList) : ℕ := if tags = [] then 0 else tags.length*6+1

def blockRoom (e : ListEntry) : ℕ := if e.value.isNone then 3 else 5

def blocksRoom (es : UdevList) : ℕ := (es.map blockRoom).sum

def programRoom (m : Filter) : ℕ :=
  if m.filterSubsystemList = [] ∧ m.filterTagList = [] then 0
  else 3+tagRoom m.filterTagList+(if m.filterSubsystemList = [] then 0 else blocksRoom m.filterSubsystemList+1)+1

/-- The stores are inside of the array, and a program that does not fit is refused. -/
def KeepsRoom (m : Filter) (r : InsArray × ℤ) : Prop := r.1.Inside ∧ (512 < programRoom m → r.2 = -7)

/-- No match begins in front of the last two instructions and ends behind the array. -/
def RoomFrom (p : ℕ) (es : UdevList) : Prop :=
  ∀ before e after, es = before ++ e::after → p+blocksRoom before ≤ 510 → p+blocksRoom before+blockRoom e ≤ 512

variable {hash : CString → UInt32} {es : UdevList} {a : InsArray}

theorem subsystemBlock_length (hash : CString → UInt32) (e : ListEntry) :
    (subsystemBlock hash e).length = blockRoom e := by
  unfold subsystemBlock blockRoom
  cases e.value <;> rfl

theorem tagPart_length (hash : CString → UInt32) (tags : UdevList) : (tagPart hash tags).length = tagRoom tags := by
  unfold tagPart tagRoom
  split_ifs
  · rfl
  · rw [List.length_append,tagBlocks_length,List.length_singleton]

theorem tagLoop_eq (tags : UdevList) (a : InsArray) : tagLoop hash tags a = a.emit (tagBlocks hash tags) := by
  induction tags generalizing a with
  | nil => rfl
  | cons e es ih => rw [tagLoop,tagBlocks,emit_append,ih]

theorem tags_emit (tags : UdevList) :
    (if tags = [] then InsArray.emit {} programStart
      else (tagLoop hash tags (InsArray.emit {} programStart)).bpf (.ret 0)) =
      InsArray.emit {} (programStart ++ tagPart hash tags) := by
  unfold tagPart
  split_ifs
  · rw [List.append_nil]
  · rw [tagLoop_eq,← List.append_assoc,emit_append,emit_append]
    rfl

theorem blocksRoom_cons (p : ℕ) (e : ListEntry) (es : UdevList) :
    p+blocksRoom (e::es) = p+blockRoom e+blocksRoom es := by
  rw [blocksRoom,List.map_cons,List.sum_cons,← Nat.add_assoc]
  rfl

theorem roomFrom_nil (p : ℕ) : RoomFrom p [] := fun before e after h => absurd h (by simp)

theorem roomFrom_cons {p : ℕ} {e : ListEntry} :
    RoomFrom p (e::es) ↔ (p ≤ 510 → p+blockRoom e ≤ 512) ∧ RoomFrom (p+blockRoom e) es := by
  constructor
  · intro h
    constructor
    · exact h [] e es rfl
    · intro before x after heq hle
      rw [← blocksRoom_cons] at hle ⊢
      exact h (e::before) x after (by rw [heq,List.cons_append]) hle
  · intro h before x after heq hle
    cases before with
    | nil =>
      obtain ⟨rfl,-⟩ := List.cons.inj heq
      exact h.1 hle
    | cons y before =>
      obtain ⟨rfl,hrest⟩ := List.cons.inj heq
      rw [blocksRoom_cons] at hle ⊢
      exact h.2 before x after hrest hle

theorem stores_subsystemLoop (es : UdevList) (a : InsArray) : a.stores ⊆ (subsystemLoop hash es a).1.stores := by
  induction es generalizing a with
  | nil => exact fun _ hk => hk
  | cons e es ih =>
    intro k hk
    have hk : k ∈ (a.emit (subsystemBlock hash e)).stores := stores_emit a _ hk
    rw [subsystemLoop]
    split_ifs
    · exact hk
    · exact ih _ hk

/-- The loop over the subsystems stores inside exactly where each match that is reached fits. -/
theorem subsystemLoop_inside (ha : a.Inside) (hi : a.i ≤ 510) :
    (subsystemLoop hash es a).1.Inside ↔ RoomFrom a.i es := by
  induction es generalizing a with
  | nil => exact iff_of_true ha (roomFrom_nil _)
  | cons e es ih =>
    rw [subsystemLoop,roomFrom_cons,← subsystemBlock_length hash e]
    by_cases hfit : a.i+(subsystemBlock hash e).length ≤ 512
    · obtain ⟨hinside,hend⟩ := inside_emit ha hfit
      have hmod : ((a.emit (subsystemBlock hash e)).i+1) % 2^32 = (a.emit (subsystemBlock hash e)).i+1 :=
        Nat.mod_eq_of_lt (by omega)
      simp only [hmod]
      by_cases hfull : (a.emit (subsystemBlock hash e)).i+1 ≥ 512
      · rw [if_pos hfull]
        refine iff_of_true hinside ⟨fun _ => hfit,?_⟩
        intro before x after _ hle
        omega
      · rw [if_neg hfull,ih hinside (by omega),hend]
        exact (and_iff_right fun _ => hfit).symm
    · have hout := emit_outside (show a.i ≤ 512 by omega) (Nat.lt_of_not_le hfit)
      refine iff_of_false ?_ fun h => hfit (h.1 hi)
      intro hall
      apply absurd (hall 512 _) (Nat.lt_irrefl 512)
      split_ifs
      · exact hout
      · exact stores_subsystemLoop es _ hout

theorem subsystemLoop_spec (ha : a.Inside) (hi : a.i ≤ 510) (hroom : RoomFrom a.i es) :
    (∃ b, subsystemBlocks hash a.i es = some b ∧ b.length = blocksRoom es ∧ a.i+b.length ≤ 510 ∧
      subsystemLoop hash es a = (a.emit b,false)) ∨
    subsystemBlocks hash a.i es = none ∧ 510 < a.i+blocksRoom es ∧ (subsystemLoop hash es a).2 = true := by
  induction es generalizing a with
  | nil => exact Or.inl ⟨[],rfl,rfl,hi,rfl⟩
  | cons e es ih =>
    rw [roomFrom_cons,← subsystemBlock_length hash e] at hroom
    obtain ⟨hinside,hend⟩ := inside_emit ha (hroom.1 hi)
    have hle := hroom.1 hi
    have hmod : ((a.emit (subsystemBlock hash e)).i+1) % 2^32 = a.i+(subsystemBlock hash e).length+1 := by
      rw [hend]
      exact Nat.mod_eq_of_lt (by omega)
    rw [subsystemBlocks,subsystemLoop,blocksRoom_cons,← subsystemBlock_length hash e]
    simp only [hmod]
    by_cases hfull : a.i+(subsystemBlock hash e).length+1 ≥ 512
    · rw [if_pos hfull,if_pos hfull]
      exact Or.inr ⟨rfl,by omega,rfl⟩
    · rw [if_neg hfull,if_neg hfull,← hend]
      rw [← hend] at hroom
      rcases ih hinside (by omega) hroom.2 with ⟨b,hb,hlen,hfit,hloop⟩ | ⟨hnone,hlong,hfail⟩
      · refine Or.inl ⟨subsystemBlock hash e ++ b,?_,?_,?_,?_⟩
        · rw [hb,Option.map_some]
        · have hsum := blocksRoom_cons 0 e es
          rw [List.length_append,hlen,subsystemBlock_length]
          omega
        · rw [List.length_append]
          omega
        · rw [hloop,emit_append]
      · exact Or.inr ⟨by rw [hnone,Option.map_none],by omega,hfail⟩

theorem start_inside (hash : CString → UInt32) (m : Filter) (htags : m.filterTagList.length ≤ 84) :
    (InsArray.emit {} (programStart ++ tagPart hash m.filterTagList)).Inside ∧
    (InsArray.emit {} (programStart ++ tagPart hash m.filterTagList)).i = 3+tagRoom m.filterTagList ∧
    3+tagRoom m.filterTagList ≤ 508 := by
  have hle : 3+tagRoom m.filterTagList ≤ 508 := by
    unfold tagRoom
    split_ifs <;> omega
  have hlen : (programStart ++ tagPart hash m.filterTagList).length = 3+tagRoom m.filterTagList := by
    rw [List.length_append,tagPart_length]
    rfl
  have hnew : InsArray.Inside {} := fun k hk => absurd hk List.not_mem_nil
  have hfit : 0+(programStart ++ tagPart hash m.filterTagList).length ≤ 512 := by
    rw [hlen]
    omega
  obtain ⟨hinside,hend⟩ := inside_emit hnew hfit
  rw [hlen] at hend
  exact ⟨hinside,hend.trans (Nat.zero_add _),hle⟩

/-- With more tags the program leaves the array in front of the subsystems. -/
theorem start_outside {m : Filter} (htags : 84 < m.filterTagList.length) :
    512 ∈ (InsArray.emit {} (programStart ++ tagPart hash m.filterTagList)).stores := by
  apply emit_outside
  · exact Nat.zero_le _
  · rw [List.length_append,tagPart_length,tagRoom,if_neg]
    · show 512 < 0+(3+_)
      omega
    · intro hnil
      rw [hnil] at htags
      exact absurd htags (Nat.not_lt_zero _)

theorem updateRun_eq (attach : InsArray → ℤ) {m : Filter}
    (hne : ¬(m.filterSubsystemList = [] ∧ m.filterTagList = [])) :
    updateRun hash attach m =
      let a := InsArray.emit {} (programStart ++ tagPart hash m.filterTagList)
      if m.filterSubsystemList = [] then (a.emit [.ret pass],attach (a.emit [.ret pass]))
      else
        let r := subsystemLoop hash m.filterSubsystemList a
        if r.2 then (r.1,-7) else (r.1.emit [.ret 0,.ret pass],attach (r.1.emit [.ret 0,.ret pass])) := by
  rw [updateRun,if_neg hne]
  simp only [tags_emit]
  rfl

theorem stores_updateRun (attach : InsArray → ℤ) {m : Filter}
    (hne : ¬(m.filterSubsystemList = [] ∧ m.filterTagList = [])) :
    (InsArray.emit {} (programStart ++ tagPart hash m.filterTagList)).stores ⊆
      (updateRun hash attach m).1.stores := by
  rw [updateRun_eq attach hne]
  simp only
  split_ifs
  · exact stores_emit _ _
  · exact stores_subsystemLoop _ _
  · exact fun k hk => stores_emit _ _ (stores_subsystemLoop _ _ hk)

/-- The program of the monitor is in the array where all stores are inside. -/
theorem updateRun_program (attach : InsArray → ℤ) {m : Filter} {p : List Insn} (htags : m.filterTagList.length ≤ 84)
    (hroom : RoomFrom (3+tagRoom m.filterTagList) m.filterSubsystemList)
    (hne : ¬(m.filterSubsystemList = [] ∧ m.filterTagList = [])) (hp : filterProgram hash m = some p) :
    (updateRun hash attach m).1.HoldsProgram p := by
  obtain ⟨hinside,hi,hle⟩ := start_inside hash m htags
  have hnew : HoldsProgram {} [] := ⟨rfl,fun k hk => absurd hk (Nat.not_lt_zero k)⟩
  have hlen : (programStart ++ tagPart hash m.filterTagList).length = 3+tagRoom m.filterTagList := by
    rw [List.length_append,tagPart_length]
    rfl
  rw [updateRun_eq attach hne]
  simp only
  unfold filterProgram at hp
  simp only at hp
  by_cases hsub : m.filterSubsystemList = []
  · rw [if_pos hsub] at hp ⊢
    obtain rfl := Option.some.inj hp
    rw [← emit_append]
    exact holdsProgram_emit hnew (by simp only [List.length_append,hlen,List.length_nil,List.length_singleton]; omega)
  · rw [if_neg hsub] at hp ⊢
    rw [← hi] at hroom
    rw [hlen,← hi] at hp
    rcases subsystemLoop_spec hinside (by omega) hroom with ⟨b,hb,-,hfit,hloop⟩ | ⟨hnone,-,-⟩
    · rw [hb,Option.map_some] at hp
      obtain rfl := Option.some.inj hp
      rw [hloop]
      show HoldsProgram (((InsArray.emit {} _).emit b).emit [.ret 0,.ret pass]) _
      rw [← emit_append,← emit_append,List.append_assoc]
      apply holdsProgram_emit hnew
      rw [List.length_append] at hlen
      simp only [List.length_append,List.length_nil,List.length_cons]
      omega
    · rw [hnone,Option.map_none] at hp
      cases hp

/-- The program is stored inside of the array, or refused, exactly with at most 84 tags and where no
match of a subsystem begins in front of the last two instructions and ends behind the array. -/
theorem filter_update_room_iff (hash : CString → UInt32) (attach : InsArray → ℤ) (m : Filter) :
    KeepsRoom m (updateRun hash attach m) ↔
      m.filterTagList.length ≤ 84 ∧ RoomFrom (3+tagRoom m.filterTagList) m.filterSubsystemList := by
  by_cases hne : m.filterSubsystemList = [] ∧ m.filterTagList = []
  · rw [KeepsRoom,updateRun,if_pos hne,programRoom,if_pos hne,hne.1,hne.2]
    exact iff_of_true ⟨fun k hk => absurd hk List.not_mem_nil,fun h => absurd h (by decide)⟩
      ⟨Nat.zero_le _,roomFrom_nil _⟩
  by_cases htags : m.filterTagList.length ≤ 84
  · obtain ⟨hinside,hi,hle⟩ := start_inside hash m htags
    rw [and_iff_right htags,KeepsRoom,updateRun_eq attach hne,programRoom,if_neg hne,← hi]
    simp only
    by_cases hsub : m.filterSubsystemList = []
    · simp only [if_pos hsub]
      rw [hsub]
      refine iff_of_true ⟨?_,fun h => absurd h (by omega)⟩ (roomFrom_nil _)
      exact (inside_emit hinside (by rw [List.length_singleton]; omega)).1
    · simp only [if_neg hsub]
      constructor
      · intro h
        rw [← @subsystemLoop_inside hash _ _ hinside (by omega)]
        intro k hk
        apply h.1 k
        split_ifs
        · exact hk
        · exact stores_emit _ _ hk
      · intro hroom
        have hstores := (@subsystemLoop_inside hash _ _ hinside (by omega)).mpr hroom
        rcases subsystemLoop_spec hinside (by omega) hroom with ⟨b,-,hlen,hfit,hloop⟩ | ⟨-,-,hfail⟩
        · obtain ⟨hb,hend⟩ := inside_emit hinside (show _+b.length ≤ 512 by omega)
          rw [hloop]
          constructor
          · exact (inside_emit hb (by rw [hend]; exact Nat.add_le_add_right hfit 2)).1
          · intro hlong
            omega
        · rw [if_pos hfail]
          exact ⟨hstores,fun _ => rfl⟩
  · refine iff_of_false ?_ fun h => htags h.1
    intro h
    exact absurd (h.1 512 (stores_updateRun attach hne (start_outside (Nat.lt_of_not_le htags)))) (Nat.lt_irrefl 512)

/-- A monitor to which 85 tags are added writes behind the array. -/
theorem filter_update_room_85 :
    ¬ KeepsRoom (calls ((List.range 85).map fun n => .addTag (some [.ofNat (n+33)])))
      (updateRun utilStringHash32 (fun _ => 0)
        (calls ((List.range 85).map fun n => .addTag (some [.ofNat (n+33)])))) := by
  have hlen : (calls ((List.range 85).map fun n => .addTag (some [.ofNat (n+33)]))).filterTagList.length = 85 := by
    decide +kernel
  intro h
  have hne : ¬((calls ((List.range 85).map fun n => .addTag (some [.ofNat (n+33)]))).filterSubsystemList = [] ∧
      (calls ((List.range 85).map fun n => .addTag (some [.ofNat (n+33)]))).filterTagList = []) := by
    intro hnil
    rw [hnil.2] at hlen
    cases hlen
  have hout := @stores_updateRun utilStringHash32 (fun _ => 0) _ hne _ (start_outside (by omega))
  exact absurd (h.1 512 hout) (Nat.lt_irrefl 512)

end SocketFilter
end Udev
