import Udev.CheckedBuffer
import Udev.Receive

/-! `udev_monitor_receive_device` from the test of the length on, with every read checked against
the bytes that were received. -/
namespace Udev
namespace Receive

open CString Text CheckedBuffer ClassicBpf

/-- The types of the platform: `ssize_t` has 64 or 32 bits. -/
inductive Abi
  | lp64 | ilp32
  deriving DecidableEq, Repr

/-- An `unsigned int` as a `ssize_t`. -/
def Abi.ssize : Abi → ℕ → ℤ
  | lp64, n => n
  | ilp32, n => toInt32 n

inductive Fault
  | outside | unfinished
  deriving DecidableEq, Repr

def inside {α : Type} : Option α → Except Fault α
  | some a => .ok a
  | none => .error .outside

def hostWord (buf : List UInt8) (k : ℕ) : Option ℕ :=
  match buf.drop k with
  | a::b::c::d::_ => some (a.toNat+(b.toNat+(c.toNat+d.toNat*0x100)*0x100)*0x100)
  | _ => none

/-- Where `strtoull` ends: it examines white space, a sign, digits and the byte behind them. -/
def numberEnd (buf : List UInt8) (i : ℕ) : Option ℕ := do
  let i ← scan isspace buf i
  let c ← get buf i
  scan isdigit buf (if c = chr '-' ∨ c = chr '+' then i+1 else i)

/-- `udev_device_add_property_from_string_parse` on a string in the buffer: only the time is not
read from inside of the string. -/
def addPropertyAt (buf : List UInt8) (property : CString) (bufpos : ℕ) (r : Parsed) : Except Fault Parsed := do
  if startswith property (str "USEC_INITIALIZED=") then
    let _ ← inside (numberEnd buf (bufpos+19))
  return addPropertyFromStringParse r property (buf.drop (bufpos+property.length+1))

def receiveLoop (buf : List UInt8) : ℕ → ℕ → Parsed → Except Fault Parsed
  | 0, bufpos, r => if bufpos < buf.length then .error .unfinished else .ok r
  | fuel+1, bufpos, r =>
    if bufpos < buf.length then do
      let key ← inside (stringAt buf bufpos)
      if key = [] then return r
      let r ← addPropertyAt buf key bufpos r
      receiveLoop buf fuel (bufpos+key.length+1) r
    else .ok r

/-- Where the properties start; `none` for a message that is refused. -/
def propertiesStart (abi : Abi) (buf : List UInt8) : Except Fault (Option ℤ) := do
  if buf.take 8 = str "libudev" ++ [0] then
    -- udev message needs proper version magic
    let word ← inside (loadWord buf 8)
    if word ≠ SocketFilter.magic then return none
    let off ← inside (hostWord buf 16)
    if (off+32) % 2^32 > buf.length then return none
    return some (abi.ssize off)
  else
    -- kernel message with header
    let header ← inside (stringAt buf 0)
    if header.length+1 < 5 ∨ header.length+1 ≥ buf.length then return none
    -- check message header
    if strstr header (str "@/") = none then return none
    return some ((header.length+1 : ℕ) : ℤ)

def receiveProperties (global : UdevList) (buf : List UInt8) (bufpos : ℤ) : Except Fault (Option Device) := do
  if bufpos < 0 then throw .outside
  let r ← receiveLoop buf (buf.length-bufpos.toNat) bufpos.toNat { dev := { propertiesList := global } }
  return parseFinish r

/-- `udev_monitor_receive_device` on the bytes that were received from a sender that is trusted,
up to the match of the filter. -/
def receiveDevice (abi : Abi) (global : UdevList) (buf : List UInt8) : Except Fault (Option Device) := do
  if buf.length < 32 ∨ buf.length ≥ 8192 then return none
  match ← propertiesStart abi buf with
  | none => return none
  | some bufpos => receiveProperties global buf bufpos

def NumberEnds (s : List UInt8) : Prop :=
  let t := s.dropWhile isspace
  ((if charAt t 0 = chr '-' ∨ charAt t 0 = chr '+' then t.drop 1 else t).dropWhile isdigit) ≠ []

instance (s : List UInt8) : Decidable (NumberEnds s) := inferInstanceAs (Decidable (_ ≠ _))

/-- The strings of a message are terminated up to its end or up to an empty one, and behind each
time its number ends. -/
inductive Enclosed : List UInt8 → Prop
  | done : Enclosed []
  | stop (rest : List UInt8) : Enclosed (0::rest)
  | string {s behind : List UInt8} (hne : s ≠ []) (hnul : 0 ∉ s)
      (hnumber : startswith s (str "USEC_INITIALIZED=") = true → NumberEnds ((s ++ 0::behind).drop 19))
      (hbehind : Enclosed behind) : Enclosed (s ++ 0::behind)

/-- A message that is enclosed from where its properties start. -/
def Stays (abi : Abi) (buf : List UInt8) : Prop :=
  if buf.take 8 = str "libudev" ++ [0] then
    ∀ off, loadWord buf 8 = some SocketFilter.magic → hostWord buf 16 = some off → (off+32) % 2^32 ≤ buf.length →
      0 ≤ abi.ssize off ∧ Enclosed (buf.drop off)
  else
    0 ∈ buf ∧ ∀ header payload, buf = header ++ 0::payload → 0 ∉ header → 4 ≤ header.length → payload ≠ [] →
      str "@/" <:+: header → Enclosed payload

section Number

variable {s x : List UInt8} {i : ℕ}

theorem numberEnd_isSome {buf : List UInt8} : (numberEnd buf i).isSome ↔ NumberEnds (buf.drop i) := by
  rw [numberEnd,NumberEnds]
  cases hscan : scan isspace buf i with
  | none =>
    have hnil : (buf.drop i).dropWhile isspace = [] := by
      have hnot := mt scan_isSome.mpr (by rw [hscan]; simp : ¬(scan isspace buf i).isSome)
      rwa [not_not] at hnot
    rw [hnil]
    simp
  | some e =>
    obtain ⟨w,c,z,hdrop,rfl,hw,hc⟩ := scan_eq_some hscan
    have ht : (buf.drop i).dropWhile isspace = c::z := by
      rw [hdrop,List.dropWhile_append_of_pos hw,List.dropWhile_cons_of_neg (by simp [hc])]
    have hbehind : buf.drop (i+w.length) = c::z := by rw [← List.drop_drop,hdrop,List.drop_left]
    have hget : get buf (i+w.length) = some c := by
      show buf[i+w.length]? = some c
      rw [← List.head?_drop,hbehind]
      rfl
    have hnext : buf.drop (i+w.length+1) = z := by rw [← List.drop_drop,hbehind]; rfl
    rw [ht]
    simp only [Option.bind_eq_bind,Option.bind_some,hget,charAt,List.getD_cons_zero,scan_isSome]
    by_cases hsign : c = chr '-' ∨ c = chr '+'
    · rw [if_pos hsign,if_pos hsign,hnext]
      rfl
    · rw [if_neg hsign,if_neg hsign,hbehind]

theorem isdigit_iff {c : UInt8} : isdigit c = true ↔ chr '0' ≤ c ∧ c.toNat < (chr '0').toNat+10 := by
  have h9 : (chr '9').toNat = 57 := rfl
  have h0 : (chr '0').toNat = 48 := rfl
  rw [isdigit,Bool.and_eq_true,decide_eq_true_iff,decide_eq_true_iff,h0]
  constructor
  · rintro ⟨hlo,hhi⟩
    have := UInt8.le_iff_toNat_le.mp hhi
    exact ⟨hlo,by omega⟩
  · rintro ⟨hlo,hhi⟩
    exact ⟨hlo,UInt8.le_iff_toNat_le.mpr (by omega)⟩

theorem digits_behind (hs : s.dropWhile isdigit ≠ []) (acc : ℕ) :
    digits 10 acc (s ++ x) = ((digits 10 acc s).1,(digits 10 acc s).2 ++ x) := by
  induction s generalizing acc with
  | nil => exact absurd rfl hs
  | cons c s ih =>
    rw [List.cons_append,digits,digits]
    by_cases hc : isdigit c = true
    · rw [List.dropWhile_cons_of_pos hc] at hs
      rw [if_pos (isdigit_iff.mp hc),if_pos (isdigit_iff.mp hc)]
      exact ih hs _
    · rw [if_neg (mt isdigit_iff.mpr hc),if_neg (mt isdigit_iff.mpr hc)]
      rfl

theorem number_behind (hs : NumberEnds s) :
    (number 10 (s ++ x)).1 = (number 10 s).1 ∧ (number 10 (s ++ x)).2.1 = (number 10 s).2.1 := by
  rw [NumberEnds] at hs
  have hne : s.dropWhile isspace ≠ [] := by
    intro hnil
    rw [hnil] at hs
    simp at hs
  have hspace : (s ++ x).dropWhile isspace = s.dropWhile isspace ++ x := by
    rw [List.dropWhile_append,if_neg (by rwa [List.isEmpty_iff])]
  obtain ⟨c,t,ht⟩ := List.exists_cons_of_ne_nil hne
  have hsign : ∀ y, charAt (c::t ++ y) 0 = c := fun y => rfl
  have hsign' : charAt (c::t) 0 = c := rfl
  rw [ht] at hs hspace
  simp only [number,hspace,ht,hsign,hsign'] at hs ⊢
  generalize hu : (if c = chr '-' ∨ c = chr '+' then (c::t).drop 1 else c::t) = u at hs ⊢
  have hux : (if c = chr '-' ∨ c = chr '+' then (c::t ++ x).drop 1 else c::t ++ x) = u ++ x := by
    rw [← hu]
    split_ifs <;> rfl
  rw [hux,digits_behind hs]
  have hlen : ((digits 10 0 u).2 ++ x).length = (u ++ x).length ↔ (digits 10 0 u).2.length = u.length := by simp
  by_cases hend : (digits 10 0 u).2.length = u.length
  · rw [if_pos hend,if_pos (hlen.mpr hend)]
    exact ⟨rfl,rfl⟩
  · rw [if_neg hend,if_neg (mt hlen.mp hend)]
    exact ⟨rfl,rfl⟩

theorem strtoul_behind (hs : NumberEnds s) : (strtoul 10 (s ++ x)).1 = (strtoul 10 s).1 := by
  obtain ⟨hneg,hvalue⟩ := number_behind (x := x) hs
  rw [strtoul,strtoul,hneg,hvalue]
  split_ifs <;> rfl

end Number

theorem append_nul_inj {s s' z z' : List UInt8} (hs : 0 ∉ s) (hs' : 0 ∉ s') (h : s ++ 0::z = s' ++ 0::z') :
    s = s' ∧ z = z' := by
  have heq : s = s' := by rw [← takeWhile_ne hs z,h,takeWhile_ne hs']
  subst heq
  exact ⟨rfl,(List.cons.inj (List.append_cancel_left h)).2⟩

theorem enclosed_string {s z : List UInt8} (hne : s ≠ []) (hnul : 0 ∉ s) :
    Enclosed (s ++ 0::z) ↔
      (startswith s (str "USEC_INITIALIZED=") = true → NumberEnds ((s ++ 0::z).drop 19)) ∧ Enclosed z := by
  constructor
  · intro h
    generalize hl : s ++ 0::z = l at h
    cases h with
    | done => simp at hl
    | stop rest => exact absurd (append_nul_inj hnul List.not_mem_nil hl).1 hne
    | string hne' hnul' hnumber hbehind =>
      obtain ⟨rfl,rfl⟩ := append_nul_inj hnul hnul' hl
      exact ⟨hnumber,hbehind⟩
  · rintro ⟨hnumber,hbehind⟩
    exact .string hne hnul hnumber hbehind

theorem not_enclosed {l : List UInt8} (hne : l ≠ []) (h0 : 0 ∉ l) : ¬Enclosed l := by
  intro h
  cases h with
  | done => exact hne rfl
  | stop rest => exact h0 List.mem_cons_self
  | string _ _ _ _ => exact h0 (by simp)

/-- The parser sees of the memory behind the string only the number of a time. -/
theorem addPropertyFromStringParse_memory {s z : List UInt8} (behind : List UInt8) (r : Parsed)
    (hnumber : startswith s (str "USEC_INITIALIZED=") = true → NumberEnds ((s ++ 0::z).drop 19)) :
    addPropertyFromStringParse r s (z ++ behind) = addPropertyFromStringParse r s z := by
  by_cases htime : startswith s (str "USEC_INITIALIZED=") = true
  · have hends := hnumber htime
    have hlong : 19 ≤ (s ++ 0::z).length := by
      by_contra hshort
      rw [List.drop_eq_nil_of_le (by omega)] at hends
      simp [NumberEnds] at hends
    have hdrop : (s ++ 0::(z ++ behind)).drop 19 = (s ++ 0::z).drop 19 ++ behind := by
      rw [← List.drop_append_of_le_length hlong,List.append_assoc,List.cons_append]
    simp only [addPropertyFromStringParse,hdrop,strtoul_behind hends]
  · simp only [addPropertyFromStringParse,htime,Bool.false_eq_true,if_false]

theorem addPropertyAt_eq {buf s z : List UInt8} {bufpos : ℕ} (hbuf : buf.drop bufpos = s ++ 0::z) (r : Parsed) :
    addPropertyAt buf s bufpos r =
      if startswith s (str "USEC_INITIALIZED=") = true ∧ ¬NumberEnds ((s ++ 0::z).drop 19) then .error .outside
      else .ok (addPropertyFromStringParse r s z) := by
  have hbehind : buf.drop (bufpos+s.length+1) = z := by
    rw [Nat.add_assoc,← List.drop_drop,hbuf,drop_behind]
  have hends : (numberEnd buf (bufpos+19)).isSome ↔ NumberEnds ((s ++ 0::z).drop 19) := by
    rw [← hbuf,List.drop_drop]
    exact numberEnd_isSome
  rw [addPropertyAt,hbehind]
  by_cases htime : startswith s (str "USEC_INITIALIZED=") = true
  · rw [if_pos htime]
    cases hend : numberEnd buf (bufpos+19) with
    | none =>
      have hnot : ¬NumberEnds ((s ++ 0::z).drop 19) := by
        rw [← hends,hend]
        simp
      rw [if_pos ⟨htime,hnot⟩]
      rfl
    | some e =>
      have hyes : NumberEnds ((s ++ 0::z).drop 19) := by
        rw [← hends,hend]
        rfl
      rw [if_neg fun h => h.2 hyes]
      rfl
  · rw [if_neg htime,if_neg (fun h => htime h.1)]
    rfl

/-- One string of the buffer is taken, unless a time in it ends too early. -/
theorem receiveLoop_string {buf s z : List UInt8} {bufpos : ℕ} (hbuf : buf.drop bufpos = s ++ 0::z) (hne : s ≠ [])
    (hnul : 0 ∉ s) (fuel : ℕ) (r : Parsed) :
    receiveLoop buf (fuel+1) bufpos r =
      if startswith s (str "USEC_INITIALIZED=") = true ∧ ¬NumberEnds ((s ++ 0::z).drop 19) then .error .outside
      else receiveLoop buf fuel (bufpos+s.length+1) (addPropertyFromStringParse r s z) := by
  have hlt : bufpos < buf.length := by
    by_contra hge
    rw [List.drop_eq_nil_of_le (Nat.le_of_not_lt hge)] at hbuf
    simp at hbuf
  have hkey : stringAt buf bufpos = some s := by
    have hsplit : buf = buf.take bufpos ++ (s ++ 0::z) := by rw [← hbuf,List.take_append_drop]
    exact stringAt_append hsplit (List.length_take_of_le (Nat.le_of_lt hlt)).symm hnul
  rw [receiveLoop,if_pos hlt,hkey]
  simp only [inside,bind,Except.bind,if_neg hne]
  rw [addPropertyAt_eq hbuf]
  split_ifs <;> rfl

/-- What is enclosed is read to its end, whatever is behind it; else there is a read outside. -/
theorem receiveLoop_eq (behind : List UInt8) {buf : List UInt8} {fuel bufpos : ℕ} (r : Parsed)
    (hfuel : buf.length ≤ bufpos+fuel) :
    (Enclosed (buf.drop bufpos) → receiveLoop buf fuel bufpos r = .ok (parseStrings behind fuel (buf.drop bufpos) r)) ∧
    (¬Enclosed (buf.drop bufpos) → receiveLoop buf fuel bufpos r = .error .outside) := by
  induction fuel generalizing bufpos r with
  | zero =>
    have hdrop : buf.drop bufpos = [] := List.drop_eq_nil_of_le hfuel
    rw [hdrop,receiveLoop,if_neg (by omega)]
    constructor
    · intro _
      rfl
    · intro h
      exact absurd .done h
  | succ fuel ih =>
    by_cases hlt : bufpos < buf.length
    · have hne : buf.drop bufpos ≠ [] := by
        rw [ne_eq,List.drop_eq_nil_iff]
        omega
      cases hkey : stringAt buf bufpos with
      | none =>
        have hopen := not_enclosed hne (stringAt_eq_none.mp hkey)
        rw [receiveLoop,if_pos hlt,hkey]
        constructor
        · intro h
          exact absurd h hopen
        · intro _
          rfl
      | some s =>
        obtain ⟨hnul,z,hz⟩ := stringAt_eq_some hkey
        by_cases hempty : s = []
        · rw [hz,hempty,receiveLoop,if_pos hlt,hkey,hempty]
          constructor
          · intro _
            rfl
          · intro h
            exact absurd (.stop z) h
        · have hbehind : buf.drop (bufpos+s.length+1) = z := by
            rw [Nat.add_assoc,← List.drop_drop,hz,drop_behind]
          obtain ⟨hin,hout⟩ := @ih (bufpos+s.length+1) (addPropertyFromStringParse r s z) (by omega)
          rw [hbehind] at hin hout
          rw [receiveLoop_string hz hempty hnul,hz,parseStrings_string hempty hnul,enclosed_string hempty hnul]
          by_cases htime : startswith s (str "USEC_INITIALIZED=") = true ∧ ¬NumberEnds ((s ++ 0::z).drop 19)
          · rw [if_pos htime]
            constructor
            · rintro ⟨hnumber,-⟩
              exact absurd (hnumber htime.1) htime.2
            · intro _
              rfl
          · have hnumber : startswith s (str "USEC_INITIALIZED=") = true → NumberEnds ((s ++ 0::z).drop 19) := by
              intro hs
              by_contra hnot
              exact htime ⟨hs,hnot⟩
            rw [if_neg htime,addPropertyFromStringParse_memory behind r hnumber]
            constructor
            · rintro ⟨-,hz⟩
              exact hin hz
            · intro hopen
              exact hout fun hz => hopen ⟨hnumber,hz⟩
    · have hdrop : buf.drop bufpos = [] := List.drop_eq_nil_of_le (by omega)
      rw [hdrop,receiveLoop,if_neg hlt]
      constructor
      · intro _
        rfl
      · intro h
        exact absurd .done h

variable {abi : Abi} {buf : List UInt8}

theorem hostWord_lt {k off : ℕ} (h : hostWord buf k = some off) : off < 2^32 := by
  rw [hostWord] at h
  split at h
  · next a b c d z _ =>
    have := a.toNat_lt
    have := b.toNat_lt
    have := c.toNat_lt
    have := d.toNat_lt
    have hoff := Option.some.inj h
    omega
  · cases h

theorem exists_four {k : ℕ} (h : k+4 ≤ buf.length) : ∃ a b c d z, buf.drop k = a::b::c::d::z := by
  have hlen := List.length_drop (l := buf) (i := k)
  match hdrop : buf.drop k with
  | a::b::c::d::z => exact ⟨a,b,c,d,z,rfl⟩
  | [] | [_] | [_,_] | [_,_,_] =>
    rw [hdrop] at hlen
    simp at hlen
    omega

theorem loadWord_isSome {k : ℕ} (h : k+4 ≤ buf.length) : ∃ w, loadWord buf k = some w := by
  obtain ⟨a,b,c,d,z,hdrop⟩ := exists_four h
  rw [loadWord,hdrop]
  exact ⟨_,rfl⟩

theorem hostWord_isSome {k : ℕ} (h : k+4 ≤ buf.length) : ∃ off, hostWord buf k = some off := by
  obtain ⟨a,b,c,d,z,hdrop⟩ := exists_four h
  rw [hostWord,hdrop]
  exact ⟨_,rfl⟩

theorem Abi.ssize_toNat {off : ℕ} (hoff : off < 2^32) (h : 0 ≤ abi.ssize off) : (abi.ssize off).toNat = off := by
  cases abi with
  | lp64 => rfl
  | ilp32 =>
    simp only [Abi.ssize,toInt32,Int.bmod] at h ⊢
    omega

/-- The properties of a message that is enclosed give the same device whatever is behind it. -/
theorem receiveProperties_enclosed (global : UdevList) (behind : List UInt8) {bufpos : ℤ} {off : ℕ} (hpos : 0 ≤ bufpos)
    (hoff : bufpos.toNat = off) (h : Enclosed (buf.drop off)) :
    receiveProperties global buf bufpos = .ok (receive global behind (buf.drop off)) := by
  have hfuel : buf.length ≤ off+(buf.length-off) := by omega
  have hloop := (receiveLoop_eq behind { dev := { propertiesList := global } } hfuel).1 h
  rw [receiveProperties,if_neg (by omega),hoff,hloop,receive,List.length_drop]
  rfl

theorem receiveProperties_open (global : UdevList) {bufpos : ℤ} {off : ℕ} (hoff : bufpos.toNat = off)
    (h : ¬Enclosed (buf.drop off)) : receiveProperties global buf bufpos = .error .outside := by
  have hfuel : buf.length ≤ off+(buf.length-off) := by omega
  have hloop := (receiveLoop_eq [] { dev := { propertiesList := global } } hfuel).2 h
  rw [receiveProperties,hoff,hloop]
  split_ifs <;> rfl

theorem receiveDevice_libudev (global : UdevList) (h32 : 32 ≤ buf.length) (hn : buf.length < 8192)
    (hlib : buf.take 8 = str "libudev" ++ [0]) :
    (Stays abi buf → ∃ d, receiveDevice abi global buf = .ok d) ∧
    (¬Stays abi buf → receiveDevice abi global buf = .error .outside) := by
  obtain ⟨word,hword⟩ := loadWord_isSome (show 8+4 ≤ buf.length by omega)
  obtain ⟨off,hoff⟩ := hostWord_isSome (show 16+4 ≤ buf.length by omega)
  rw [receiveDevice,if_neg (by omega),propertiesStart,Stays,if_pos hlib,if_pos hlib,hword,hoff]
  simp only [inside,bind,Except.bind]
  by_cases hmagic : word = SocketFilter.magic
  · rw [if_neg (not_not_intro hmagic)]
    by_cases hfit : (off+32) % 2^32 ≤ buf.length
    · rw [if_neg (by omega)]
      constructor
      · intro h
        obtain ⟨hpos,henclosed⟩ := h off (congrArg some hmagic) rfl hfit
        exact ⟨_,receiveProperties_enclosed global [] hpos (Abi.ssize_toNat (hostWord_lt hoff) hpos) henclosed⟩
      · intro h
        by_cases hpos : 0 ≤ abi.ssize off
        · apply receiveProperties_open global (Abi.ssize_toNat (hostWord_lt hoff) hpos)
          intro henclosed
          apply h
          intro off' _ hsome _
          obtain rfl := Option.some.inj hsome
          exact ⟨hpos,henclosed⟩
        · show receiveProperties global buf (abi.ssize off) = _
          rw [receiveProperties,if_pos (by omega)]
          rfl
    · rw [if_pos (by omega)]
      constructor
      · intro _
        exact ⟨none,rfl⟩
      · intro h
        exfalso
        apply h
        intro off' _ hsome hfit'
        obtain rfl := Option.some.inj hsome
        exact absurd hfit' hfit
  · rw [if_pos hmagic]
    constructor
    · intro _
      exact ⟨none,rfl⟩
    · intro h
      exfalso
      apply h
      intro off' hsome
      exact absurd (Option.some.inj hsome) hmagic

theorem receiveDevice_kernel (global : UdevList) (h32 : 32 ≤ buf.length) (hn : buf.length < 8192)
    (hlib : buf.take 8 ≠ str "libudev" ++ [0]) :
    (Stays abi buf → ∃ d, receiveDevice abi global buf = .ok d) ∧
    (¬Stays abi buf → receiveDevice abi global buf = .error .outside) := by
  rw [receiveDevice,if_neg (by omega),propertiesStart,Stays,if_neg hlib,if_neg hlib]
  cases hheader : stringAt buf 0 with
  | none =>
    have h0 := stringAt_eq_none.mp hheader
    constructor
    · rintro ⟨hmem,-⟩
      exact absurd hmem h0
    · intro _
      rfl
  | some header =>
    obtain ⟨hnul,payload,hbuf⟩ := stringAt_eq_some hheader
    rw [List.drop_zero] at hbuf
    have hmem : 0 ∈ buf := by rw [hbuf]; simp
    have hlen : buf.length = header.length+1+payload.length := by
      rw [hbuf,List.length_append,List.length_cons]
      omega
    have hdrop : buf.drop (header.length+1) = payload := by
      rw [hbuf,drop_behind]
    have hsplit : ∀ header' payload', buf = header' ++ 0::payload' → 0 ∉ header' → header' = header ∧ payload' = payload := by
      intro header' payload' hbuf' hnul'
      exact append_nul_inj hnul' hnul (hbuf'.symm.trans hbuf)
    have hpayload : payload = [] ↔ payload.length = 0 := List.length_eq_zero_iff.symm
    simp only [inside,bind,Except.bind]
    by_cases hshort : header.length+1 < 5 ∨ header.length+1 ≥ buf.length
    · rw [if_pos hshort]
      constructor
      · intro _
        exact ⟨none,rfl⟩
      · intro h
        exfalso
        apply h
        refine ⟨hmem,fun header' payload' hbuf' hnul' hfour hne _ => ?_⟩
        obtain ⟨rfl,rfl⟩ := hsplit header' payload' hbuf' hnul'
        rw [ne_eq,hpayload] at hne
        omega
    rw [if_neg hshort]
    by_cases hat : strstr header (str "@/") = none
    · rw [if_pos hat]
      constructor
      · intro _
        exact ⟨none,rfl⟩
      · intro h
        exfalso
        apply h
        refine ⟨hmem,fun header' payload' hbuf' hnul' _ _ hinfix => ?_⟩
        obtain ⟨rfl,rfl⟩ := hsplit header' payload' hbuf' hnul'
        rw [← strstr_isSome,hat] at hinfix
        cases hinfix
    · rw [if_neg hat]
      have hto : ((header.length+1 : ℕ) : ℤ).toNat = header.length+1 := rfl
      constructor
      · rintro ⟨-,h⟩
        have henclosed : Enclosed (buf.drop (header.length+1)) := by
          rw [hdrop]
          apply h header payload hbuf hnul (by omega)
          · rw [ne_eq,hpayload]
            omega
          · exact strstr_isSome.mp (Option.isSome_iff_ne_none.mpr hat)
        exact ⟨_,receiveProperties_enclosed global [] (Int.natCast_nonneg _) hto henclosed⟩
      · intro h
        apply receiveProperties_open global hto
        rw [hdrop]
        intro henclosed
        apply h
        refine ⟨hmem,fun header' payload' hbuf' hnul' _ _ _ => ?_⟩
        obtain ⟨rfl,rfl⟩ := hsplit header' payload' hbuf' hnul'
        exact henclosed

/-- Outside of the condition, and only there, something behind the message is read. -/
theorem receiveDevice_eq (abi : Abi) (global : UdevList) (h32 : 32 ≤ buf.length) (hn : buf.length < 8192) :
    (Stays abi buf → ∃ d, receiveDevice abi global buf = .ok d) ∧
    (¬Stays abi buf → receiveDevice abi global buf = .error .outside) := by
  by_cases hlib : buf.take 8 = str "libudev" ++ [0]
  · exact receiveDevice_libudev global h32 hn hlib
  · exact receiveDevice_kernel global h32 hn hlib

/-- Only the bytes that were received are examined if and only if the strings of the message, and
the header of a kernel message, have their terminators in it, and no time ends too early; the loop
always ends. -/
theorem receiveDevice_iff (abi : Abi) (global : UdevList) (h32 : 32 ≤ buf.length) (hn : buf.length < 8192) :
    ((∃ d, receiveDevice abi global buf = .ok d) ↔ Stays abi buf) ∧
    receiveDevice abi global buf ≠ .error .unfinished := by
  obtain ⟨hin,hout⟩ := receiveDevice_eq abi global h32 hn
  by_cases hstays : Stays abi buf
  · obtain ⟨d,hd⟩ := hin hstays
    constructor
    · exact ⟨fun _ => hstays,fun _ => ⟨d,hd⟩⟩
    · rw [hd]
      nofun
  · constructor
    · constructor
      · rintro ⟨d,hd⟩
        rw [hout hstays] at hd
        cases hd
      · intro h
        exact absurd h hstays
    · rw [hout hstays]
      nofun

theorem kernel_message_stays :
    let buf := str "add@/devices/x" ++ [0] ++ str "ACTION=add" ++ [0] ++ str "SUBSYSTEM=block" ++ [0]
    Stays .lp64 buf ∧ receiveDevice .lp64 [] buf ≠ .error .unfinished := by
  intro buf
  have h := @receiveDevice_iff buf .lp64 [] (by decide) (by decide)
  have hnone : receiveDevice .lp64 [] buf = .ok none := by decide +kernel
  exact ⟨h.1.mp ⟨none,hnone⟩,h.2⟩

/-- The last property lacks its terminator. -/
theorem unterminated_reads_outside :
    let buf := str "add@/devices/x" ++ [0] ++ str "ACTION=add" ++ [0] ++ str "SUBSYSTEM=block"
    32 ≤ buf.length ∧ buf.length < 8192 ∧ ¬∃ d, receiveDevice .lp64 [] buf = .ok d := by
  intro buf
  have hout : receiveDevice .lp64 [] buf = .error .outside := rfl
  refine ⟨by decide,by decide,?_⟩
  rintro ⟨d,hd⟩
  rw [hout] at hd
  cases hd

/-- With 32 bits an offset near the limit is in front of the buffer. -/
example : receiveDevice .ilp32 [] (str "libudev" ++ [0] ++ be32 SocketFilter.magic ++ be32 40 ++
    [0xf0,0xff,0xff,0xff] ++ List.replicate 20 0) = .error .outside := by decide +kernel

end Receive
end Udev
