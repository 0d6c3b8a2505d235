import Udev.Matching
import Udev.Memory
import Mathlib.Data.List.DropRight

/-! `match_attr` on the memory of its buffer. The value is copied to the buffer and cut
there, but the loop that cuts it starts at the length of the value. -/
namespace Udev
namespace Rules

open CString Text Memory

/-- What `match_attr` does with its buffer: the indices that are read or written, and the
text that is compared. -/
structure BufferRun where
  accesses : List ℕ
  text : CString

def endsInSpace (s : CString) : Bool := s ≠ [] ∧ isspace (s.getLastD 0)

/-- The loop that removes white space from the index `len-1` down. -/
def stripLoop : ℕ → Memory → List ℕ × Memory
  | 0, m => ([],m)
  | len+1, m =>
    if isspace (m len) then
      let r := stripLoop len (Function.update m len 0)
      (len::len::r.1,r.2)
    else ([len],m)

/-- The value that was found, with what was done to the buffer. -/
structure Loaded where
  accesses : List ℕ
  mem : Memory
  value : CString

/-- For "[subsystem/kernel]attribute" the value is found in the buffer. -/
def loadValue (k : KeyToken) (value : CString) (m : Memory) : Loaded :=
  if k.attrsubst = .subsys then
    let copy := strscpy utilNameSize value
    ⟨List.range (copy.length+1),m.store 0 copy,copy⟩
  else ⟨[],m,value⟩

def copyValue (k : KeyToken) (l : Loaded) : List ℕ × Memory :=
  if k.attrsubst = .subsys then (l.accesses,l.mem)
  else
    let copy := strscpy utilNameSize l.value
    (List.range (copy.length+1),l.mem.store 0 copy)

def Strips (k : KeyToken) (value : CString) : Prop :=
  endsInSpace value = true ∧ k.value ≠ [] ∧ ¬isspace (k.value.getLastD 0)

instance (k : KeyToken) (value : CString) : Decidable (Strips k value) := by unfold Strips; infer_instance

/-- `match_attr` from the value of the attribute on, with any memory at its buffer. -/
def attrRun (k : KeyToken) (value : CString) (m : Memory) : BufferRun :=
  let l := loadValue k value m
  if Strips k l.value then
    let c := copyValue k l
    let r := stripLoop l.value.length c.2
    ⟨c.1 ++ r.1,r.2.text utilNameSize⟩
  else ⟨l.accesses,l.value⟩

theorem removeTrailing_concat (p : UInt8 → Bool) (s : CString) (c : UInt8) :
    removeTrailing p (s ++ [c]) = if p c then removeTrailing p s else s ++ [c] :=
  List.rdropWhile_concat p s c

theorem endsInSpace_concat (s : CString) (c : UInt8) : endsInSpace (s ++ [c]) = isspace c := by
  simp [endsInSpace]

theorem removeTrailing_eq_self {s : CString} : removeTrailing isspace s = s ↔ endsInSpace s = false := by
  induction s using List.reverseRecOn with
  | nil => decide
  | append_singleton s c _ =>
    rw [endsInSpace_concat,removeTrailing_concat]
    cases hc : isspace c with
    | false => simp
    | true =>
      refine iff_of_false ?_ (by decide)
      intro heq
      have hpre : (removeTrailing isspace s).length ≤ s.length :=
        (List.rdropWhile_prefix isspace (l := s)).length_le
      have hlen := congrArg List.length heq
      rw [if_pos rfl,List.length_append,List.length_singleton] at hlen
      omega

/-- In a buffer that holds the value, the loop removes its white space. -/
theorem stripLoop_holds {m : Memory} {s : CString} (hs : Holds m s) (hend : m s.length = 0) :
    (∀ i ∈ (stripLoop s.length m).1, i < s.length) ∧
    Holds (stripLoop s.length m).2 (removeTrailing isspace s) ∧
    (stripLoop s.length m).2 (removeTrailing isspace s).length = 0 := by
  induction s using List.reverseRecOn generalizing m with
  | nil => exact ⟨fun i hi => absurd hi List.not_mem_nil,holds_nil m,hend⟩
  | append_singleton s c ih =>
    have hc : m s.length = c := by
      rw [hs s.length (by simp)]
      exact charAt_append_right s [c] 0
    rw [List.length_append,List.length_singleton,stripLoop,hc,removeTrailing_concat]
    cases hspace : isspace c with
    | false =>
      rw [List.length_append,List.length_singleton] at hend
      refine ⟨fun i hi => ?_,hs,?_⟩
      · rw [if_neg Bool.false_ne_true,List.mem_singleton] at hi
        omega
      · rw [if_neg Bool.false_ne_true,if_neg Bool.false_ne_true,List.length_append]
        exact hend
    | true =>
      rw [if_pos rfl,if_pos rfl]
      have hcut : Holds (Function.update m s.length 0) s := fun i hi => by
        rw [Function.update_of_ne (Nat.ne_of_lt hi)]
        exact hs.left i hi
      obtain ⟨hacc,hrest⟩ := ih hcut (Function.update_self ..)
      refine ⟨fun i hi => ?_,hrest⟩
      simp only [List.mem_cons] at hi
      rcases hi with rfl | rfl | hi
      · exact Nat.lt_succ_self _
      · exact Nat.lt_succ_self _
      · exact Nat.lt_succ_of_lt (hacc i hi)

/-- A terminator stops the loop: what is before it stays, and the loop begins behind it. -/
theorem stripLoop_stops {n len : ℕ} (hlen : n < len) (m : Memory) (hend : m n = 0) :
    len-1 ∈ (stripLoop len m).1 ∧ ∀ i ≤ n, (stripLoop len m).2 i = m i := by
  induction len generalizing m with
  | zero => exact absurd hlen (Nat.not_lt_zero _)
  | succ len ih =>
    rw [stripLoop,Nat.add_sub_cancel]
    cases hspace : isspace (m len) with
    | false => exact ⟨List.mem_cons_self,fun i _ => rfl⟩
    | true =>
      have hne : n ≠ len := by
        rintro rfl
        rw [hend] at hspace
        exact absurd hspace (by decide)
      rw [if_pos rfl]
      have hrest := (ih (by omega) (Function.update m len 0) (by rw [Function.update_of_ne hne,hend])).2
      refine ⟨List.mem_cons_self,fun i hi => ?_⟩
      rw [hrest i hi,Function.update_of_ne (by omega)]

theorem stripLoop_at {n : ℕ} {m : Memory} (hend : m n = 0) : (stripLoop (n+1) m).1 = [n] := by
  rw [stripLoop,hend,if_neg (by decide)]

theorem removeTrailing_take {s : CString} {n : ℕ} (h : (removeTrailing isspace s).length ≤ n) :
    removeTrailing isspace (s.take n) = removeTrailing isspace s := by
  induction s using List.reverseRecOn with
  | nil => rw [List.take_nil]
  | append_singleton s c ih =>
    rw [removeTrailing_concat] at h ⊢
    by_cases hc : isspace c = true
    · rw [if_pos hc] at h ⊢
      by_cases hn : n ≤ s.length
      · rw [List.take_append_of_le_length hn,ih h]
      · rw [List.take_of_length_le (by simp only [List.length_append,List.length_singleton]; omega),
          removeTrailing_concat,if_pos hc]
    · rw [if_neg hc] at h ⊢
      rw [List.take_of_length_le h,removeTrailing_concat,if_neg hc]

theorem removeTrailing_endsInSpace (s : CString) : endsInSpace (removeTrailing isspace s) = false :=
  removeTrailing_eq_self.mp (List.rdropWhile_idempotent isspace s)

def kept (value : CString) : CString := value.take (utilNameSize-1)

theorem strscpy_kept (value : CString) : strscpy utilNameSize value = kept value := strscpy_eq (by decide) value

theorem kept_length (value : CString) : (kept value).length < utilNameSize := by
  have hlen := List.length_take_le (utilNameSize-1) value
  unfold kept utilNameSize at *
  omega

theorem kept_eq {value : CString} (h : value.length < utilNameSize) : kept value = value :=
  List.take_of_length_le (by unfold utilNameSize at *; omega)

theorem kept_kept (value : CString) : kept (kept value) = kept value := kept_eq (kept_length value)

theorem removeTrailing_kept (value : CString) :
    removeTrailing isspace (kept value) = removeTrailing isspace value ↔
      (removeTrailing isspace value).length < utilNameSize := by
  constructor
  · intro heq
    have hpre := (List.rdropWhile_prefix isspace (l := kept value)).length_le
    exact heq ▸ hpre.trans_lt (kept_length value)
  · intro hlen
    exact removeTrailing_take (by unfold utilNameSize at *; omega)

theorem nul_kept {value : CString} (hnul : 0 ∉ value) : 0 ∉ kept value := fun h => hnul (List.mem_of_mem_take h)

theorem attrText_eq (k : KeyToken) (value : CString) :
    attrText k value =
      if Strips k value then if value.length < utilNameSize then removeTrailing isspace value else kept value
      else value := by
  rw [attrText,strscpy_kept]
  refine if_congr ?_ rfl rfl
  simp [Strips,endsInSpace,and_assoc]

theorem mem_range_kept (value : CString) : ∀ i ∈ List.range ((kept value).length+1), i < utilNameSize := by
  intro i hi
  have hlen := kept_length value
  have hle := List.mem_range.mp hi
  omega

theorem store_holds (m : Memory) (s : CString) : Holds (m.store 0 s) s ∧ m.store 0 s s.length = 0 := by
  have hend := store_end m 0 s
  rw [Nat.zero_add] at hend
  exact ⟨(holds_nil m).store s,hend⟩

def found (k : KeyToken) (value : CString) : CString := if k.attrsubst = .subsys then kept value else value

theorem loadValue_value (k : KeyToken) (value : CString) (m : Memory) :
    (loadValue k value m).value = found k value := by
  unfold loadValue found
  split_ifs
  · exact strscpy_kept value
  · rfl

theorem kept_found (k : KeyToken) (value : CString) : kept (found k value) = kept value := by
  unfold found
  split_ifs
  · exact kept_kept value
  · rfl

theorem nul_found {value : CString} (hnul : 0 ∉ value) (k : KeyToken) : 0 ∉ found k value := by
  unfold found
  split_ifs
  · exact nul_kept hnul
  · exact hnul

/-- The loop finds the value in the buffer, as far as the buffer keeps it. -/
theorem copyValue_holds (k : KeyToken) (value : CString) (m : Memory) :
    (∀ i ∈ (copyValue k (loadValue k value m)).1, i < utilNameSize) ∧
    Holds (copyValue k (loadValue k value m)).2 (kept (found k value)) ∧
    (copyValue k (loadValue k value m)).2 (kept (found k value)).length = 0 := by
  rw [kept_found]
  by_cases hsub : k.attrsubst = .subsys
  · rw [copyValue,loadValue,if_pos hsub,if_pos hsub,strscpy_kept]
    exact ⟨mem_range_kept value,store_holds m (kept value)⟩
  · rw [copyValue,loadValue,if_neg hsub,if_neg hsub,strscpy_kept]
    exact ⟨mem_range_kept value,store_holds m (kept value)⟩

theorem loadValue_accesses (k : KeyToken) (value : CString) (m : Memory) :
    ∀ i ∈ (loadValue k value m).accesses, i < utilNameSize := by
  unfold loadValue
  split_ifs
  · rw [strscpy_kept]
    exact mem_range_kept value
  · exact fun i hi => absurd hi List.not_mem_nil

theorem text_kept {m : Memory} {value : CString} (hnul : 0 ∉ value)
    (hm : Holds m (removeTrailing isspace value)) (hend : m (removeTrailing isspace value).length = 0)
    (hlen : value.length < utilNameSize) : m.text utilNameSize = removeTrailing isspace value := by
  have hpre := List.rdropWhile_prefix isspace (l := value)
  exact hm.text hend (fun h => hnul (hpre.subset h)) (hpre.length_le.trans_lt hlen)

/-- The loop on a buffer that keeps the value: it stays in the buffer exactly when the
value is not longer than the buffer, and the text is the one of `attrText`. -/
theorem stripLoop_kept {m : Memory} {value : CString} (hnul : 0 ∉ value) (hm : Holds m (kept value))
    (hend : m (kept value).length = 0) :
    ((∀ i ∈ (stripLoop value.length m).1, i < utilNameSize) ↔ value.length ≤ utilNameSize) ∧
    (stripLoop value.length m).2.text utilNameSize =
      if value.length < utilNameSize then removeTrailing isspace value else kept value := by
  by_cases hlen : value.length < utilNameSize
  · rw [kept_eq hlen] at hm hend
    obtain ⟨hacc,hholds,hzero⟩ := stripLoop_holds hm hend
    rw [if_pos hlen]
    exact ⟨iff_of_true (fun i hi => (hacc i hi).trans hlen) hlen.le,text_kept hnul hholds hzero hlen⟩
  · have hfull : (kept value).length = utilNameSize-1 := by
      rw [kept,List.length_take]
      unfold utilNameSize at *
      omega
    have hshort : (kept value).length < value.length := by
      unfold utilNameSize at *
      omega
    obtain ⟨hfirst,hsame⟩ := stripLoop_stops hshort m hend
    refine ⟨⟨fun hall => ?_,fun hle => ?_⟩,?_⟩
    · have := hall _ hfirst
      omega
    · have heq : value.length = (kept value).length+1 := by
        unfold utilNameSize at *
        omega
      rw [heq,stripLoop_at hend]
      intro i hi
      rw [List.mem_singleton.mp hi]
      exact kept_length value
    · rw [if_neg hlen]
      have hkept : Holds (stripLoop value.length m).2 (kept value) := fun i hi => by
        rw [hsame i hi.le,hm i hi]
      exact hkept.text (by rw [hsame _ le_rfl,hend]) (nul_kept hnul) (kept_length value)

/-- The text that is compared is the one of `attrText`, whatever the memory holds. -/
theorem attrRun_text {value : CString} (hnul : 0 ∉ value) (k : KeyToken) (m : Memory) :
    (attrRun k value m).text = attrText k (found k value) := by
  obtain ⟨-,hm,hend⟩ := copyValue_holds k value m
  rw [attrText_eq,attrRun,loadValue_value]
  by_cases hstrips : Strips k (found k value)
  · rw [if_pos hstrips,if_pos hstrips]
    exact (stripLoop_kept (nul_found hnul k) hm hend).2
  · rw [if_neg hstrips,if_neg hstrips]

theorem attrRun_inside {value : CString} (hnul : 0 ∉ value) (k : KeyToken) (m : Memory) :
    (∀ i ∈ (attrRun k value m).accesses, i < utilNameSize) ↔
      (Strips k (found k value) → (found k value).length ≤ utilNameSize) := by
  obtain ⟨hcopy,hm,hend⟩ := copyValue_holds k value m
  have hloop := (stripLoop_kept (nul_found hnul k) hm hend).1
  rw [attrRun,loadValue_value]
  by_cases hstrips : Strips k (found k value)
  · rw [if_pos hstrips]
    simp only [List.mem_append,or_imp,forall_and]
    rw [hloop]
    exact ⟨fun hall _ => hall.2,fun hall => ⟨hcopy,hall hstrips⟩⟩
  · rw [if_neg hstrips]
    exact iff_of_true (loadValue_accesses k value m) fun h => absurd h hstrips

/-- `match_attr` stays in its buffer and compares the stripped value. -/
def ComparesStripped (k : KeyToken) (value : CString) (m : Memory) : Prop :=
  (∀ i ∈ (attrRun k value m).accesses, i < utilNameSize) ∧
    (attrRun k value m).text = removeTrailing isspace value

/-- A value that is found in the buffer has no text behind it; any other value ends
without white space, or has white space only in the last place that fits or behind it. -/
def BufferSuffices (k : KeyToken) (value : CString) : Prop :=
  if k.attrsubst = .subsys then
    (removeTrailing isspace value).length < utilNameSize ∧ (k.value ≠ [] ∨ endsInSpace (kept value) = false)
  else
    endsInSpace value = false ∨
      k.value ≠ [] ∧
        (value.length < utilNameSize ∨ value.length = utilNameSize ∧ endsInSpace (kept value) = false)

theorem strips_iff {k : KeyToken} (hrule : endsInSpace k.value = false) (value : CString) :
    Strips k value ↔ endsInSpace value = true ∧ k.value ≠ [] := by
  have hlast : k.value ≠ [] → ¬isspace (k.value.getLastD 0) = true := fun hne hspace =>
    of_decide_eq_false hrule ⟨hne,hspace⟩
  exact ⟨fun h => ⟨h.1,h.2.1⟩,fun h => ⟨h.1,h.2,hlast h.2⟩⟩

theorem attrText_found {k : KeyToken} (hrule : endsInSpace k.value = false) {value : CString}
    (hlen : value.length < utilNameSize) :
    attrText k value = if k.value ≠ [] then removeTrailing isspace value else value := by
  rw [attrText_eq,if_pos hlen]
  by_cases hne : k.value ≠ []
  · rw [if_pos hne]
    by_cases hspace : endsInSpace value = true
    · rw [if_pos ((strips_iff hrule value).mpr ⟨hspace,hne⟩)]
    · rw [if_neg fun h => hspace h.1,removeTrailing_eq_self.mpr (Bool.not_eq_true _ ▸ hspace)]
  · rw [if_neg hne,if_neg fun h => hne h.2.1]

theorem compares_subsys {k : KeyToken} (hsub : k.attrsubst = .subsys) (hrule : endsInSpace k.value = false)
    {value : CString} (hnul : 0 ∉ value) (m : Memory) :
    ComparesStripped k value m ↔
      (removeTrailing isspace value).length < utilNameSize ∧ (k.value ≠ [] ∨ endsInSpace (kept value) = false) := by
  have hfound : found k value = kept value := if_pos hsub
  have hinside := (attrRun_inside hnul k m).mpr fun _ => hfound ▸ (kept_length value).le
  rw [ComparesStripped,attrRun_text hnul,hfound,attrText_found hrule (kept_length value),and_iff_right hinside]
  by_cases hne : k.value ≠ []
  · rw [if_pos hne,removeTrailing_kept]
    exact ⟨fun h => ⟨h,Or.inl hne⟩,And.left⟩
  · rw [if_neg hne]
    constructor
    · intro heq
      refine ⟨heq ▸ kept_length value,Or.inr ?_⟩
      rw [heq,removeTrailing_endsInSpace]
    · rintro ⟨hlen,hor⟩
      rw [← (removeTrailing_kept value).mpr hlen]
      exact (removeTrailing_eq_self.mpr (hor.resolve_left hne)).symm

/-- A value of the full size is stripped by the copy alone or not at all. -/
theorem kept_eq_stripped {value : CString} (hlen : value.length = utilNameSize)
    (hspace : endsInSpace value = true) :
    kept value = removeTrailing isspace value ↔ endsInSpace (kept value) = false := by
  have hstripped : (removeTrailing isspace value).length < utilNameSize := by
    have hpre := List.rdropWhile_prefix isspace (l := value)
    refine lt_of_le_of_ne (hlen ▸ hpre.length_le) fun heq => ?_
    have hself : removeTrailing isspace value = value := hpre.eq_of_length (heq.trans hlen.symm)
    rw [removeTrailing_eq_self.mp hself] at hspace
    cases hspace
  rw [← (removeTrailing_kept value).mpr hstripped,eq_comm,removeTrailing_eq_self]

theorem compares_copied {k : KeyToken} (hsub : k.attrsubst ≠ .subsys) (hrule : endsInSpace k.value = false)
    {value : CString} (hnul : 0 ∉ value) (m : Memory) :
    ComparesStripped k value m ↔
      endsInSpace value = false ∨
        k.value ≠ [] ∧
          (value.length < utilNameSize ∨ value.length = utilNameSize ∧ endsInSpace (kept value) = false) := by
  have hfound : found k value = value := if_neg hsub
  rw [ComparesStripped,attrRun_text hnul,attrRun_inside hnul,hfound,attrText_eq]
  simp only [strips_iff hrule]
  cases hspace : endsInSpace value with
  | false => simp [removeTrailing_eq_self.mpr hspace]
  | true =>
    have hself : value ≠ removeTrailing isspace value := fun heq => by
      rw [removeTrailing_eq_self.mp heq.symm] at hspace
      cases hspace
    by_cases hne : k.value = []
    · simp [hne,hself]
    · rcases lt_trichotomy value.length utilNameSize with hlen | hlen | hlen
      · simp [hne,hlen,hlen.le]
      · simp [hne,hlen,kept_eq_stripped hlen hspace]
      · simp [hne,hlen.not_ge,hlen.not_gt,hlen.ne']

section Value

variable {σ : Type} (h : Host σ) (s : σ)

/-- The value of the attribute that "[subsystem/kernel]attribute" names. -/
def subsysValue (string : CString) : Option CString :=
  if charAt string 0 ≠ chr '[' then none
  else
    let temp := (strscpy utilPathSize string).drop 1
    (strchr temp (chr '/')).bind fun rest =>
      (strchr (rest.drop 1) (chr ']')).bind fun tail =>
        let attr := if charAt (tail.drop 1) 0 = chr '/' then tail.drop 2 else tail.drop 1
        if attr = [] then none
        else
          (h.newFromSubsystemSysname s (temp.takeWhile (· ≠ chr '/'))
              ((rest.drop 1).takeWhile (· ≠ chr ']'))).map fun syspath =>
            (h.sysattrValue s syspath attr).getD []

theorem resolveSubsysKernel_value (string : CString) (size : ℕ) :
    resolveSubsysKernel h s string size true = (subsysValue h s string).map (strscpy size) := by
  unfold resolveSubsysKernel subsysValue
  by_cases hopen : charAt string 0 ≠ chr '['
  · rw [if_pos hopen,if_pos hopen]
    rfl
  · rw [if_neg hopen,if_neg hopen]
    dsimp only
    rw [Option.map_bind]
    refine congrArg _ (funext fun rest => ?_)
    rw [Function.comp_apply,Option.map_bind]
    refine congrArg _ (funext fun tail => ?_)
    rw [Function.comp_apply]
    simp only [true_and,if_true]
    split_ifs
    · rfl
    · rw [Option.map_map]
      rfl
    · rfl
    · rw [Option.map_map]
      rfl

def attrValue (ev : Event) (dev : Device) (k : KeyToken) : Option CString :=
  match k.attrsubst with
  | .format => h.sysattrValue s dev.syspath (applyFormat h s ev k.attr utilNameSize).1
  | .none => h.sysattrValue s dev.syspath k.attr
  | .subsys => subsysValue h s k.attr
  | .unset => none

theorem matchAttr_run (ev : Event) (dev : Device) (k : KeyToken) (m : Memory)
    (hnul : ∀ v, attrValue h s ev dev k = some v → 0 ∉ v) :
    (matchAttr h s ev dev k).1 =
      (attrValue h s ev dev k).any fun v => matchKey h k (some (attrRun k v m).text) := by
  have hsame : ∀ {o : Option CString} {f g : CString → Bool}, (∀ v, o = some v → f v = g v) → o.any f = o.any g := by
    intro o f g hfg
    cases o with
    | none => rfl
    | some v => exact hfg v rfl
  have hcopied : k.attrsubst ≠ .subsys → ∀ v, attrValue h s ev dev k = some v →
      matchKey h k (some (attrText k v)) = matchKey h k (some (attrRun k v m).text) := fun hsub v hv => by
    rw [attrRun_text (hnul v hv),found,if_neg hsub]
  unfold matchAttr
  unfold attrValue at hnul hcopied ⊢
  cases hsub : k.attrsubst with
  | unset => rfl
  | none =>
    simp only [hsub] at hcopied ⊢
    exact hsame (hcopied (by decide))
  | format =>
    simp only [hsub] at hcopied ⊢
    exact hsame (hcopied (by decide))
  | subsys =>
    simp only [hsub] at hnul ⊢
    rw [resolveSubsysKernel_value,Option.any_map]
    refine hsame fun v hv => ?_
    rw [attrRun_text (hnul v hv),found,if_pos hsub,← strscpy_kept]

end Value

/-- `match_attr` stays in its buffer and compares the stripped value exactly for the
values for which the buffer suffices. -/
theorem attr_stripped_iff (k : KeyToken) (hrule : endsInSpace k.value = false) {value : CString}
    (hnul : 0 ∉ value) (m : Memory) : ComparesStripped k value m ↔ BufferSuffices k value := by
  unfold BufferSuffices
  split_ifs with hsub
  · exact compares_subsys hsub hrule hnul m
  · exact compares_copied hsub hrule hnul m

/-- A key as `add_rule` makes it for `ATTR{model}`. -/
def modelKey (value : CString) : KeyToken := newKey .mAttr .opMatch (some value) (.attr (str "model"))

def zeroMemory : Memory := fun _ => 0

theorem attr_stripped_model :
    endsInSpace (modelKey (str "disk")).value = false ∧ 0 ∉ str "disk  " ∧
    (ComparesStripped (modelKey (str "disk")) (str "disk  ") zeroMemory ↔
      BufferSuffices (modelKey (str "disk")) (str "disk  ")) :=
  ⟨by decide,by decide,attr_stripped_iff (modelKey (str "disk")) (by decide) (by decide) zeroMemory⟩

/-- A value that is longer than the buffer. -/
def longValue : CString := List.replicate 520 (chr 'a') ++ str " "

/-- The loop reads the byte behind the buffer that has the index of the last one of the
value. -/
theorem reads_behind_buffer : ¬ComparesStripped (modelKey (str "disk")) longValue zeroMemory := by
  have hrule : endsInSpace (modelKey (str "disk")).value = false := by decide
  have hnul : 0 ∉ longValue := by decide +kernel
  rw [compares_copied (by decide) hrule hnul]
  decide +kernel

end Rules
end Udev
