import Udev.FormatScan
import Udev.Memory

/-! `udev_event_apply_format` on the memory of its destination. Values are copied with
`strpcpy`, which leaves the last byte for the terminator; plain characters are copied as
long as there is any room. -/
namespace Udev
namespace Rules

open CString Text Memory Piece

/-- The destination: its memory, the place of the next byte, the room that is counted, and
the indices that were written. -/
structure Dest where
  mem : Memory
  pos : ℕ
  room : ℕ
  writes : List ℕ

namespace Dest

def strpcpy (d : Dest) (src : CString) : Dest :=
  let bytes := if src.length ≥ d.room then src.take (d.room-1) else src
  { mem := d.mem.store d.pos bytes
    pos := d.pos+bytes.length
    room := if src.length ≥ d.room then 0 else d.room-src.length
    writes := d.writes ++ List.range' d.pos (bytes.length+1) }

/-- A plain character, where there is room. -/
def put (d : Dest) (c : UInt8) : Dest where
  mem := Function.update d.mem d.pos c
  pos := d.pos+1
  room := d.room-1
  writes := d.writes ++ [d.pos]

def terminate (d : Dest) : Dest :=
  { d with mem := Function.update d.mem d.pos 0, writes := d.writes ++ [d.pos] }

def Represents (d : Dest) (t : CString × ℕ) : Prop := Holds d.mem t.1 ∧ d.pos = t.1.length ∧ d.room = t.2

/-- All writes were inside of a destination of some size, and a terminator fits. -/
def Inside (d : Dest) (size : ℕ) : Prop := d.pos+max d.room 1 = size ∧ ∀ i ∈ d.writes, i < size

variable {d : Dest} {t : CString × ℕ} {size : ℕ}

theorem Represents.strpcpy (hd : d.Represents t) (src : CString) :
    (d.strpcpy src).Represents (Text.strpcpy t src) := by
  obtain ⟨hmem,hpos,hroom⟩ := hd
  unfold Dest.strpcpy Text.strpcpy Represents
  rw [hroom,hpos]
  split_ifs
  · exact ⟨hmem.store _,(List.length_append ..).symm,rfl⟩
  · exact ⟨hmem.store _,(List.length_append ..).symm,rfl⟩

theorem Represents.foldl (hd : d.Represents t) (parts : List CString) :
    (parts.foldl Dest.strpcpy d).Represents (parts.foldl Text.strpcpy t) := by
  induction parts generalizing d t with
  | nil => exact hd
  | cons src parts ih => exact ih (hd.strpcpy src)

theorem Represents.put (hd : d.Represents t) (c : UInt8) : (d.put c).Represents (t.1 ++ [c],t.2-1) := by
  obtain ⟨hmem,hpos,hroom⟩ := hd
  unfold Dest.put Represents
  rw [hroom,hpos]
  refine ⟨hmem.put c,?_,rfl⟩
  show t.1.length+1 = (t.1 ++ [c]).length
  rw [List.length_append,List.length_singleton]

theorem Inside.strpcpy (hd : d.Inside size) (src : CString) : (d.strpcpy src).Inside size := by
  obtain ⟨hend,hwrites⟩ := hd
  refine ⟨?_,fun i hi => ?_⟩
  · simp only [Dest.strpcpy]
    split_ifs
    · rw [List.length_take]
      omega
    · omega
  · rcases List.mem_append.mp hi with hi | hi
    · exact hwrites i hi
    · obtain ⟨-,hlt⟩ := List.mem_range'_1.mp hi
      revert hlt
      split_ifs
      · rw [List.length_take]
        omega
      · omega

theorem Inside.foldl (hd : d.Inside size) (parts : List CString) :
    (parts.foldl Dest.strpcpy d).Inside size := by
  induction parts generalizing d with
  | nil => exact hd
  | cons src parts ih => exact ih (hd.strpcpy src)

theorem Inside.put (hd : d.Inside size) (hroom : 1 < d.room) (c : UInt8) : (d.put c).Inside size := by
  obtain ⟨hend,hwrites⟩ := hd
  refine ⟨by simp only [Dest.put]; omega,fun i hi => ?_⟩
  rcases List.mem_append.mp hi with hi | hi
  · exact hwrites i hi
  · rw [List.mem_singleton.mp hi]
    omega

theorem Inside.terminate (hd : d.Inside size) : ∀ i ∈ d.terminate.writes, i < size := by
  obtain ⟨hend,hwrites⟩ := hd
  intro i hi
  rcases List.mem_append.mp hi with hi | hi
  · exact hwrites i hi
  · rw [List.mem_singleton.mp hi]
    omega

theorem pos_mem_terminate (d : Dest) : d.pos ∈ d.terminate.writes :=
  List.mem_append_right _ (List.mem_singleton_self _)

theorem foldl_room (d : Dest) (parts : List CString) :
    (parts.foldl Dest.strpcpy d).room = if parts.flatten.length < d.room then d.room-parts.flatten.length else 0 := by
  induction parts generalizing d with
  | nil => simp
  | cons src parts ih =>
    rw [List.foldl_cons,ih,List.flatten_cons,List.length_append]
    simp only [Dest.strpcpy]
    split_ifs <;> omega

theorem strpcpy_full (hroom : d.room = 0) (src : CString) :
    (d.strpcpy src).pos = d.pos ∧ (d.strpcpy src).room = 0 := by
  simp [Dest.strpcpy,hroom]

theorem foldl_full (hroom : d.room = 0) (parts : List CString) :
    (parts.foldl Dest.strpcpy d).pos = d.pos ∧ (parts.foldl Dest.strpcpy d).room = 0 := by
  induction parts generalizing d with
  | nil => exact ⟨rfl,hroom⟩
  | cons src parts ih =>
    obtain ⟨hpos,hroom⟩ := strpcpy_full hroom src
    rw [← hpos]
    exact ih hroom

end Dest

section Format

variable {σ : Type} (h : Host σ) (s : σ) (ev : Event)

/-- The loop of `udev_event_apply_format` on its destination. -/
def bufferLoop : ℕ → CString → Dest → Dest
  | n+1, c::cs, d =>
    match substAt (c::cs) with
    | some (type,rest) =>
      match substAttr rest with
      | none => d
      | some (attr,rest) => bufferLoop n rest ((substValue h s ev attr type).foldl Dest.strpcpy d)
    | none =>
      if d.room = 0 then d
      else bufferLoop n (if (c = chr '$' ∨ c = chr '%') ∧ charAt cs 0 = c then cs.drop 1 else cs) (d.put c)
  | _, _, d => d

/-- `udev_event_apply_format` with any memory at its destination. -/
def formatRun (src : CString) (size : ℕ) (m : Memory) : Dest :=
  (bufferLoop h s ev src.length src ⟨m,0,size,[]⟩).terminate

/-- Some plain character comes when the text before it leaves exactly one byte of the
room. -/
def Fills (src : CString) (room : ℕ) : Prop :=
  ∃ ps mid c rest, Scan h s ev src ps mid ∧ Step h s ev mid (.char c) rest ∧ (texts ps).length+1 = room

variable {h s ev} (n : ℕ) (d : Dest) {src rest : CString} {room : ℕ}

theorem bufferLoop_char {c : UInt8} {cs : CString} (hnone : substAt (c::cs) = none) :
    bufferLoop h s ev (n+1) (c::cs) d =
      if d.room = 0 then d else bufferLoop h s ev n (charRest c cs) (d.put c) := by
  rw [bufferLoop,hnone]
  rfl

theorem bufferLoop_subst {tail : CString} {type : SubstType} (hat : substAt src = some (type,tail)) :
    bufferLoop h s ev (n+1) src d =
      match substAttr tail with
      | none => d
      | some (attr,rest) => bufferLoop h s ev n rest ((substValue h s ev attr type).foldl Dest.strpcpy d) := by
  cases src with
  | nil => cases hat
  | cons c cs =>
    rw [bufferLoop,hat]

theorem bufferLoop_represents {t : CString × ℕ} (hd : d.Represents t) (src : CString) (read : Bool) :
    ∃ room, (bufferLoop h s ev n src d).Represents ((formatLoop h s ev n src t read).1,room) := by
  induction n generalizing src d t read with
  | zero => exact ⟨t.2,hd⟩
  | succ n ih =>
    cases src with
    | nil => exact ⟨t.2,hd⟩
    | cons c cs =>
      cases hat : substAt (c::cs) with
      | none =>
        rw [bufferLoop_char n d hat,formatLoop_char n t read hat,hd.2.2]
        split_ifs
        · exact ⟨t.2,hd⟩
        · exact ih _ (hd.put c) _ read
      | some r =>
        rw [bufferLoop_subst n d hat,formatLoop_subst n t read hat]
        cases substAttr r.2 with
        | none => exact ⟨t.2,hd⟩
        | some a => exact ih _ (hd.foldl _) _ _

theorem bufferLoop_full (hroom : d.room = 0) (src : CString) : (bufferLoop h s ev n src d).pos = d.pos := by
  induction n generalizing src d with
  | zero => rfl
  | succ n ih =>
    cases src with
    | nil => rfl
    | cons c cs =>
      cases hat : substAt (c::cs) with
      | none => rw [bufferLoop_char n d hat,if_pos hroom]
      | some r =>
        rw [bufferLoop_subst n d hat]
        cases substAttr r.2 with
        | none => rfl
        | some a =>
          obtain ⟨hpos,hroom⟩ := Dest.foldl_full hroom (substValue h s ev a.1 r.1)
          exact (ih _ hroom a.2).trans hpos

theorem not_fills_stuck (hstuck : ∀ p rest, ¬Step h s ev src p rest) : ¬Fills h s ev src room := by
  rintro ⟨ps,mid,c,rest,hscan,hstep,-⟩
  cases hscan with
  | nil => exact hstuck _ _ hstep
  | cons hfirst _ => exact hstuck _ _ hfirst

theorem fills_char {c : UInt8} (hstep : Step h s ev src (.char c) rest) :
    Fills h s ev src room ↔ room = 1 ∨ Fills h s ev rest (room-1) := by
  constructor
  · rintro ⟨ps,mid,c',rest',hscan,hlast,hlen⟩
    cases hscan with
    | nil => exact Or.inl hlen.symm
    | cons hfirst hscan =>
      obtain ⟨rfl,rfl⟩ := hfirst.unique hstep
      refine Or.inr ⟨_,mid,c',rest',hscan,hlast,?_⟩
      rw [texts_cons,List.length_append] at hlen
      simp only [Piece.text,List.length_singleton] at hlen
      omega
  · rintro (rfl | ⟨ps,mid,c',rest',hscan,hlast,hlen⟩)
    · exact ⟨[],src,c,rest,.nil src,hstep,rfl⟩
    · refine ⟨_,mid,c',rest',.cons hstep hscan,hlast,?_⟩
      rw [texts_cons,List.length_append]
      simp only [Piece.text,List.length_singleton]
      omega

theorem fills_value {parts : List CString} (hstep : Step h s ev src (.value parts) rest) :
    Fills h s ev src room ↔ parts.flatten.length < room ∧ Fills h s ev rest (room-parts.flatten.length) := by
  constructor
  · rintro ⟨ps,mid,c',rest',hscan,hlast,hlen⟩
    cases hscan with
    | nil => cases (hlast.unique hstep).1
    | cons hfirst hscan =>
      obtain ⟨rfl,rfl⟩ := hfirst.unique hstep
      rw [texts_cons,List.length_append] at hlen
      simp only [Piece.text] at hlen
      exact ⟨by omega,_,mid,c',rest',hscan,hlast,by omega⟩
  · rintro ⟨hlt,ps,mid,c',rest',hscan,hlast,hlen⟩
    refine ⟨_,mid,c',rest',.cons hstep hscan,hlast,?_⟩
    rw [texts_cons,List.length_append]
    simp only [Piece.text]
    omega

theorem not_fills_zero : ¬Fills h s ev src 0 := by
  rintro ⟨_,_,_,_,-,-,hlen⟩
  cases hlen

theorem not_fills_unclosed {tail : CString} {type : SubstType} (hat : substAt src = some (type,tail))
    (hattr : substAttr tail = none) : ¬Fills h s ev src room := by
  apply not_fills_stuck
  intro p rest hstep
  rcases hstep.cases_char with ⟨_,_,heq,hnone,-,-⟩ | ⟨type,tail,attr,hat',hattr',-⟩
  · subst heq
    rw [hat] at hnone
    cases hnone
  · obtain ⟨rfl,rfl⟩ := Prod.mk.inj (Option.some.inj (hat.symm.trans hat'))
    rw [hattr] at hattr'
    cases hattr'

theorem put_last_overflows {size : ℕ} (hd : d.Inside size) (hroom : d.room = 1) (c : UInt8) (src : CString) :
    size ∈ (bufferLoop h s ev n src (d.put c)).terminate.writes := by
  have hfull : (d.put c).room = 0 := by
    simp only [Dest.put]
    omega
  have hpos : (bufferLoop h s ev n src (d.put c)).pos = size := by
    have hend := hd.1
    rw [bufferLoop_full n (d.put c) hfull]
    simp only [Dest.put]
    omega
  rw [← hpos]
  exact Dest.pos_mem_terminate _

/-- From a place inside of the destination, the writes stay inside unless a plain character
takes the last byte. -/
theorem bufferLoop_inside_iff {size : ℕ} (hd : d.Inside size) (hn : src.length ≤ n) :
    (∀ i ∈ (bufferLoop h s ev n src d).terminate.writes, i < size) ↔ ¬Fills h s ev src d.room := by
  induction n generalizing src d with
  | zero =>
    obtain rfl := List.length_eq_zero_iff.mp (Nat.le_zero.mp hn)
    exact iff_of_true hd.terminate (not_fills_stuck not_step_nil)
  | succ n ih =>
    cases src with
    | nil => exact iff_of_true hd.terminate (not_fills_stuck not_step_nil)
    | cons c cs =>
      rw [List.length_cons] at hn
      cases hat : substAt (c::cs) with
      | none =>
        have hstep : Step h s ev (c::cs) (.char c) (charRest c cs) := step_char hat
        have hrest := charRest_length c cs
        rw [bufferLoop_char n d hat,fills_char hstep]
        obtain hroom | hroom | hroom : d.room = 0 ∨ d.room = 1 ∨ 1 < d.room := by omega
        · rw [if_pos hroom,hroom]
          exact iff_of_true hd.terminate (by simpa using not_fills_zero)
        · rw [if_neg (by omega)]
          have hlast : size ∈ (bufferLoop h s ev n (charRest c cs) (d.put c)).terminate.writes :=
            put_last_overflows n d hd hroom c _
          exact iff_of_false (fun hall => Nat.lt_irrefl size (hall size hlast)) fun hnot => hnot (Or.inl hroom)
        · rw [if_neg (by omega),ih (d.put c) (hd.put hroom c) (by omega)]
          have hne : d.room ≠ 1 := by omega
          exact not_congr (or_iff_right hne).symm
      | some r =>
        have hspec := substAt_eq_some.mp (show substAt (c::cs) = some (r.1,r.2) from hat)
        have hlt := hspec.length_lt
        rw [List.length_cons] at hlt
        rw [bufferLoop_subst n d hat]
        cases hattr : substAttr r.2 with
        | none =>
          exact iff_of_true hd.terminate (not_fills_unclosed hat hattr)
        | some a =>
          have hbraces := substAttr_eq_some.mp (show substAttr r.2 = some (a.1,a.2) from hattr)
          have hle := hbraces.length_le
          rw [fills_value (.subst hspec hbraces)]
          show (∀ i ∈ (bufferLoop h s ev n a.2 _).terminate.writes, i < size) ↔ _
          rw [ih _ (hd.foldl _) (by omega),Dest.foldl_room]
          split_ifs with hfit
          · exact not_congr (and_iff_right hfit).symm
          · exact iff_of_true not_fills_zero fun hand => hfit hand.1

/-- The destination is written inside only, and holds a terminated string. -/
def Contained (h : Host σ) (s : σ) (ev : Event) (src : CString) (size : ℕ) (m : Memory) : Prop :=
  (∀ i ∈ (formatRun h s ev src size m).writes, i < size) ∧ ∃ i < size, (formatRun h s ev src size m).mem i = 0

/-- What is written inside is the text of the expansion with its terminator. -/
theorem formatRun_holds (src : CString) (size : ℕ) (m : Memory)
    (hinside : ∀ i ∈ (formatRun h s ev src size m).writes, i < size) :
    (applyFormat h s ev src size).1.length < size ∧
    Holds (formatRun h s ev src size m).mem (applyFormat h s ev src size).1 ∧
    (formatRun h s ev src size m).mem (applyFormat h s ev src size).1.length = 0 := by
  have hstart : Dest.Represents ⟨m,0,size,[]⟩ ([],size) := ⟨holds_nil m,rfl,rfl⟩
  obtain ⟨room,hmem,hpos,-⟩ : ∃ room, (bufferLoop h s ev src.length src ⟨m,0,size,[]⟩).Represents
    ((applyFormat h s ev src size).1,room) := bufferLoop_represents src.length _ hstart src false
  have hlast := hinside _ (Dest.pos_mem_terminate _)
  rw [hpos] at hlast
  refine ⟨hlast,fun i hi => ?_,?_⟩
  · show Function.update _ _ _ i = _
    rw [hpos,Function.update_of_ne (Nat.ne_of_lt hi)]
    exact hmem i hi
  · show Function.update _ _ _ _ = _
    rw [hpos]
    exact Function.update_self ..

/-- `udev_event_apply_format` stays in its destination and terminates it exactly when no
plain character takes the last byte. -/
theorem format_contained_iff (h : Host σ) (s : σ) (ev : Event) (src : CString) {size : ℕ} (hsize : 0 < size)
    (m : Memory) : Contained h s ev src size m ↔ ¬Fills h s ev src size := by
  have hstart : Dest.Inside ⟨m,0,size,[]⟩ size := ⟨by simp only; omega,fun i hi => absurd hi List.not_mem_nil⟩
  rw [← bufferLoop_inside_iff src.length ⟨m,0,size,[]⟩ hstart le_rfl]
  refine ⟨And.left,fun hinside => ⟨hinside,?_⟩⟩
  obtain ⟨hlen,-,hend⟩ := formatRun_holds src size m hinside
  exact ⟨_,hlen,hend⟩

end Format

theorem format_contained_part :
    0 < utilNameSize ∧
    (Contained emptyHost () partEvent kernelText utilNameSize (fun _ => 0) ↔
      ¬Fills emptyHost () partEvent kernelText utilNameSize) :=
  ⟨by decide,format_contained_iff emptyHost () partEvent kernelText (by decide) fun _ => 0⟩

/-- A text of plain characters that is as long as a name may be. -/
def fullText : CString := List.replicate 511 (chr 'a') ++ str "%%"

theorem texts_length (n : ℕ) (c : UInt8) : (texts (List.replicate n (.char c))).length = n := by
  induction n with
  | zero => rfl
  | succ n ih =>
    rw [List.replicate_succ,texts_cons,List.length_append,ih]
    exact Nat.add_comm 1 n

theorem scan_fullText (n : ℕ) (tail : CString) :
    Scan emptyHost () partEvent (List.replicate n (chr 'a') ++ tail)
      (List.replicate n (.char (chr 'a'))) tail := by
  induction n with
  | zero => exact .nil tail
  | succ n ih =>
    have hstep : Step emptyHost () partEvent (chr 'a'::(List.replicate n (chr 'a') ++ tail))
        (.char (chr 'a')) (List.replicate n (chr 'a') ++ tail) := step_char rfl
    exact .cons hstep ih

/-- The last character takes the last byte, and the terminator is written behind it. -/
theorem terminator_behind_name : ¬Contained emptyHost () partEvent fullText utilNameSize fun _ => 0 := by
  have hfills : Fills emptyHost () partEvent fullText utilNameSize := by
    have hlast : Step emptyHost () partEvent (str "%%") (.char (chr '%')) [] := step_char rfl
    refine ⟨_,_,_,_,scan_fullText 511 (str "%%"),hlast,?_⟩
    rw [texts_length]
    rfl
  have hstart : Dest.Inside ⟨fun _ => 0,0,utilNameSize,[]⟩ utilNameSize :=
    ⟨rfl,fun i hi => absurd hi List.not_mem_nil⟩
  rintro ⟨hinside,-⟩
  exact (bufferLoop_inside_iff fullText.length _ hstart le_rfl).mp hinside hfills

end Rules
end Udev
