import Udev.ReplaceWhitespace
import Udev.ScsiSearch

/-! Whether the fields of a SCSI device stay in their arrays. The serial number is what the attempts to prepend
the names have left, with the text of a reply behind it, and both have to leave room for a `NUL`. -/
namespace Udev
namespace Scsi

open CString Memory SearchLoop ReplaceWhitespace

section Safe

/-- An array that was written inside only and has a `NUL`. -/
structure Field.Safe (n : ℕ) (f : Field) : Prop where
  inside : f.Inside n
  terminated : ∃ i, i < n ∧ f.mem i = 0

structure ScsiIdDevice.Safe (dev : ScsiIdDevice) : Prop where
  serial : dev.serial.Safe maxSerialLen
  serialShort : dev.serialShort.Safe maxSerialLen
  unitSerialNumber : dev.unitSerialNumber.Safe maxSerialLen
  wwn : dev.wwn.Safe 17
  wwnVendorExtension : dev.wwnVendorExtension.Safe 17

/-- The fields that `scsi_id` formats, each into a buffer of its own size. -/
def scsiIdFormats (exported reformatSerial : Bool) (dev : ScsiIdDevice) : List Field :=
  if dev.serial.mem 0 = 0 then []
  else if exported then [dev.serial,dev.serialShort]
  else if reformatSerial then [dev.serial]
  else []

/-- `util_replace_whitespace` of a field into the buffer that begins behind it stays in the buffer. -/
def Field.Formats (f : Field) : Prop := ∃ w, replaceWhitespaceRun (maxSerialLen+1) f.mem 0 maxSerialLen maxSerialLen = some w ∧
  ∀ i ∈ w.writes, maxSerialLen ≤ i ∧ i < maxSerialLen+maxSerialLen

/-- The fields are terminated in their arrays and the formatting stays in its buffers. -/
def ScsiIdDevice.Protected (dev : ScsiIdDevice) : Prop :=
  dev.Safe ∧ ∀ exported reformatSerial, ∀ f ∈ scsiIdFormats exported reformatSerial dev, f.Formats

theorem Field.Safe.formats {f : Field} (h : f.Safe maxSerialLen) : f.Formats := by
  obtain ⟨i,hi,hend⟩ := h.terminated
  have hlen : (f.mem.textFrom 0 maxSerialLen).length < maxSerialLen := by
    refine textFrom_lt hi ?_
    rw [Nat.zero_add]
    exact hend
  have hjoined := joined_length (f.mem.textFrom 0 maxSerialLen)
  have hplace : maxSerialLen ≤ 0 ∨ 0+maxSerialLen ≤ maxSerialLen := Or.inr (Nat.zero_add _).le
  refine ⟨_,replaceWhitespaceRun_eq hplace (Nat.lt_succ_self _),fun k hk => ?_⟩
  rw [written,List.length_append,List.length_singleton] at hk
  obtain ⟨hlow,hhigh⟩ := List.mem_range'_1.mp hk
  omega

theorem protected_iff {dev : ScsiIdDevice} : dev.Protected ↔ dev.Safe := by
  refine and_iff_left_of_imp fun h exported reformatSerial f hf => ?_
  have hmem : f = dev.serial ∨ f = dev.serialShort := by
    rw [scsiIdFormats] at hf
    split_ifs at hf
    · exact absurd hf List.not_mem_nil
    · exact List.mem_pair.mp hf
    · exact Or.inl (List.mem_singleton.mp hf)
    · exact absurd hf List.not_mem_nil
  rcases hmem with rfl | rfl
  · exact h.serial.formats
  · exact h.serialShort.formats

theorem safe_iff_serial {dev : ScsiIdDevice} (hshort : dev.serialShort.Safe maxSerialLen)
    (hunit : dev.unitSerialNumber.Safe maxSerialLen) (hwwn : dev.wwn.Safe 17) (hext : dev.wwnVendorExtension.Safe 17) :
    dev.Safe ↔ dev.serial.Safe maxSerialLen :=
  ⟨fun h => h.serial,fun h => ⟨h,hshort,hunit,hwwn,hext⟩⟩

theorem safe_zero (n : ℕ) : Field.Safe (n+1) {} := ⟨fun _ hi => absurd hi List.not_mem_nil,0,Nat.succ_pos n,rfl⟩

theorem safe_empty : Field.Safe maxSerialLen {} := safe_zero 255

theorem safe_strcpy {n : ℕ} {t : CString} (hlen : t.length < n) : (Field.strcpy {} 0 t).Safe n := by
  constructor
  · rw [Field.strcpy,inside_write,List.length_append,List.length_singleton]
    exact ⟨fun _ hi => absurd hi List.not_mem_nil,fun _ => by omega⟩
  · refine ⟨t.length,hlen,?_⟩
    rw [Field.strcpy,write_mem]
    have hat := write_at (fun _ => 0) 0 (s := t ++ [0]) (i := t.length) (by rw [List.length_append]; exact Nat.lt_succ_self _)
    rw [Nat.zero_add] at hat
    exact hat.trans (charAt_append_right t [0] 0)

theorem safe_strncpy {n : ℕ} {t : CString} : (Field.strncpy {} 0 t n).Safe (n+1) := by
  have hlen : (t.take n ++ List.replicate (n-t.length) (0 : UInt8)).length = n := by
    rw [List.length_append,List.length_take,List.length_replicate]
    omega
  constructor
  · rw [Field.strncpy,inside_write,hlen]
    exact ⟨fun _ hi => absurd hi List.not_mem_nil,fun _ => by omega⟩
  · refine ⟨n,Nat.lt_succ_self n,?_⟩
    rw [Field.strncpy,write_mem]
    exact write_of_not _ _ (Or.inr (by rw [hlen,Nat.zero_add]))

end Safe

section Room

variable {names : Names} {k : ℕ} {f : Field} {bytes : CString}

/-- Behind what the attempts left there is room for a text and a `NUL`, which may be one of the text. -/
def Names.Room (names : Names) (k : ℕ) (text : CString) : Prop :=
  1+(names.leftover k).length+text.length < maxSerialLen ∨
    1+(names.leftover k).length+text.length = maxSerialLen ∧ 0 ∈ text

theorem leftover_short (h : names.Roomy k) : (names.leftover k).length < maxSerialLen-1 := by
  have hvendor := names.vendor_len
  have hmodel := names.model_len
  cases k with
  | zero => exact show 0 < maxSerialLen-1 by decide
  | succ k =>
    by_cases hfull : names.vendor.length = vendorLength
    · have hroom := h hfull
      rw [← before_succ hfull,before_length hfull]
      simp only [maxSerialLen,vendorLength] at hroom ⊢
      omega
    · rw [Names.leftover,Names.before,if_neg hfull,List.length_append]
      simp only [maxSerialLen,vendorLength,modelLength] at hvendor hmodel ⊢
      omega

/-- What the attempts left is terminated as long as it was written inside the array. -/
theorem left_safe (h : Left names k f) : f.Safe maxSerialLen ↔ names.Roomy k := by
  refine ⟨fun hsafe => h.inside.mp hsafe.inside,fun hroomy => ⟨h.inside.mpr hroomy,?_⟩⟩
  have hshort := leftover_short hroomy
  refine ⟨1+(names.leftover k).length,by omega,?_⟩
  rw [h.holds _ hshort,charAt_of_le le_rfl]

theorem exists_charAt {s : CString} {c : UInt8} (h : c ∈ s) : ∃ i, i < s.length ∧ charAt s i = c := by
  obtain ⟨i,hi,hc⟩ := List.getElem_of_mem h
  exact ⟨i,hi,(List.getD_eq_getElem s 0 hi).trans hc⟩

theorem filled_front (h : Left names k f) (hfirst : f.mem 0 ≠ 0) (hshort : (names.leftover k).length < maxSerialLen-1)
    {i : ℕ} (hi : i < f.strlen 0) : (f.write (f.strlen 0) bytes).mem i ≠ 0 := by
  rw [write_mem,write_of_not _ _ (Or.inl hi)]
  cases i with
  | zero => exact hfirst
  | succ i =>
    rw [h.length hfirst] at hi
    rw [Nat.add_comm,h.holds i (by omega)]
    exact fun h0 => leftover_nul (h0 ▸ charAt_mem (show i < (names.leftover k).length by omega))

variable (bytes) in
theorem write_safe (h : Left names k f) (hfirst : f.mem 0 ≠ 0) :
    (f.write (f.strlen 0) bytes).Safe maxSerialLen ↔ names.Roomy k ∧ names.Room k bytes := by
  by_cases hroomy : names.Roomy k
  · have hshort := leftover_short hroomy
    have hlen : f.strlen 0 = 1+(names.leftover k).length := by
      rw [h.length hfirst]
      omega
    rw [and_iff_right hroomy]
    constructor
    · rintro ⟨hinside,i,hi,hend⟩
      have hlast := ((inside_write _ _ _ _).mp hinside).2
      by_cases hbelow : 1+(names.leftover k).length+bytes.length < maxSerialLen
      · exact Or.inl hbelow
      · refine Or.inr ⟨by omega,?_⟩
        by_cases hfront : i < f.strlen 0
        · exact absurd hend (filled_front h hfirst hshort hfront)
        · obtain ⟨j,rfl⟩ := Nat.exists_eq_add_of_le (Nat.le_of_not_lt hfront)
          have hj : j < bytes.length := by omega
          rw [write_mem,write_at _ _ hj] at hend
          exact hend ▸ charAt_mem hj
    · intro hroom
      have hle : 1+(names.leftover k).length+bytes.length ≤ maxSerialLen := hroom.elim le_of_lt fun h => h.1.le
      refine ⟨(inside_write _ _ _ _).mpr ⟨h.inside.mpr hroomy,fun _ => by rw [hlen]; exact hle⟩,?_⟩
      rcases hroom with hbelow | ⟨hfull,hnul⟩
      · refine ⟨1+(names.leftover k).length+bytes.length,hbelow,?_⟩
        rw [filled_at h hfirst hbelow,charAt_of_le le_rfl]
      · obtain ⟨j,hj,hend⟩ := exists_charAt hnul
        refine ⟨f.strlen 0+j,by omega,?_⟩
        rw [write_mem,write_at _ _ hj,hend]
  · refine iff_of_false (fun hsafe => hroomy ?_) fun hboth => hroomy hboth.1
    exact h.inside.mp ((inside_write _ _ _ _).mp hsafe.inside).1

end Room

section Steps

variable {names : Names} {k : ℕ} {dev : ScsiIdDevice}

/-- A device without a serial number so far, after some attempts. -/
structure Tried (names : Names) (k : ℕ) (dev : ScsiIdDevice) : Prop where
  serial : Left names k dev.serial
  serialShort : dev.serialShort = {}
  wwn : dev.wwn = {}
  wwnVendorExtension : dev.wwnVendorExtension = {}
  unitSerialNumber : dev.unitSerialNumber.Safe maxSerialLen

theorem tried_start (names : Names) : Tried names 0 {} := ⟨left_zero,rfl,rfl,rfl,safe_empty⟩

theorem Tried.safe_wwn (h : Tried names k dev) : dev.wwn.Safe 17 := h.wwn ▸ safe_zero 16

theorem Tried.safe_extension (h : Tried names k dev) : dev.wwnVendorExtension.Safe 17 := h.wwnVendorExtension ▸ safe_zero 16

theorem Tried.safe (h : Tried names k dev) : dev.Safe ↔ names.Roomy k :=
  (safe_iff_serial (h.serialShort ▸ safe_empty) h.unitSerialNumber h.safe_wwn h.safe_extension).trans
    (left_safe h.serial)

theorem text_length (f : Field) {pos : ℕ} (hpos : 0 < pos) : (f.text pos).length < maxSerialLen := by
  have hle := (holdsAt_textFrom f.mem pos (maxSerialLen-pos)).2
  rw [Field.text]
  have hsize : 0 < maxSerialLen := by decide
  omega

theorem fill_safe {f : Field} {bytes : CString} {idType : UInt8} {k₀ : ℕ} (h : Tried names k₀ dev) (hleft : Left names k f)
    (hfirst : f.mem 0 ≠ 0) : (fillDevice bytes idType f dev).Safe ↔ names.Roomy k ∧ names.Room k bytes := by
  rw [← write_safe _ hleft hfirst]
  have hpos : 0 < f.strlen 0 := by
    rw [hleft.length hfirst]
    omega
  have hshort : (Field.strcpy {} 0 ((f.write (f.strlen 0) bytes).text (f.strlen 0))).Safe maxSerialLen :=
    safe_strcpy (text_length _ hpos)
  rw [fillDevice]
  by_cases hnaa : idType = scsiIdNaa
  · rw [if_pos hnaa,h.serialShort,h.wwn,h.wwnVendorExtension]
    exact safe_iff_serial hshort h.unitSerialNumber safe_strncpy safe_strncpy
  · rw [if_neg hnaa,h.serialShort]
    exact safe_iff_serial hshort h.unitSerialNumber h.safe_wwn h.safe_extension

theorem rest_eq {dev dev' : ScsiIdDevice} (h : dev'.rest = dev.rest) : dev'.serialShort = dev.serialShort ∧
    dev'.unitSerialNumber = dev.unitSerialNumber ∧ dev'.wwn = dev.wwn ∧
      dev'.wwnVendorExtension = dev.wwnVendorExtension := by
  rw [ScsiIdDevice.rest,ScsiIdDevice.rest,Prod.mk.injEq,Prod.mk.injEq,Prod.mk.injEq] at h
  exact h

/-- A serial number with a text that is cut, and a `NUL` in the last place. -/
theorem cut_safe {f : Field} {bytes : CString} (hleft : Left names k f)
    (hroom : 0 < bytes.length → f.strlen 0+bytes.length ≤ maxSerialLen) :
    ((f.write (f.strlen 0) bytes).write (maxSerialLen-1) [0]).Safe maxSerialLen ↔ names.Roomy k := by
  rw [← hleft.inside]
  refine ⟨fun hsafe => ?_,fun hinside => ⟨?_,maxSerialLen-1,by decide,?_⟩⟩
  · have hwrites := hsafe.inside
    rw [inside_write,inside_write] at hwrites
    exact hwrites.1.1
  · rw [inside_write,inside_write]
    exact ⟨⟨hinside,hroom⟩,fun _ => show maxSerialLen-1+1 ≤ maxSerialLen by decide⟩
  · exact write_at (f.write (f.strlen 0) bytes).mem (maxSerialLen-1) (s := [0]) (i := 0) Nat.zero_lt_one

theorem prespc3_safe {page : Memory} {st : Scan} (h : Tried names k st.dev) :
    (checkFill0x83Prespc3 page st).dev.Safe ↔ names.Roomy k := by
  have hleft := h.serial.write_zero (hexStr scsiIdTgtgroup)
  have hroom : 0 < ((prespc3Bytes page ((st.dev.serial.write 0 [hexStr scsiIdTgtgroup]).strlen 0)).flatMap hexPair).length →
      (st.dev.serial.write 0 [hexStr scsiIdTgtgroup]).strlen 0 +
        ((prespc3Bytes page ((st.dev.serial.write 0 [hexStr scsiIdTgtgroup]).strlen 0)).flatMap hexPair).length ≤
          maxSerialLen := by
    rw [hexPairs_length]
    intro hpos
    have hlast := prespc3_room page ((st.dev.serial.write 0 [hexStr scsiIdTgtgroup]).strlen 0) (by omega)
    omega
  rw [← cut_safe hleft hroom,checkFill0x83Prespc3,h.serialShort]
  exact safe_iff_serial safe_strncpy h.unitSerialNumber h.safe_wwn h.safe_extension

theorem search_safe (page : Memory) (st : Scan) (h : Tried names k st.dev) :
    (pick (fun c => tryDescriptor names page c.1 c.2) (candidates page) st).1 = (taken names page k).1 ∧
      ((taken names page k).1 = none → Tried names (taken names page k).2
        (pick (fun c => tryDescriptor names page c.1 c.2) (candidates page) st).2.dev) ∧
      ∀ c, (taken names page k).1 = some c →
        ((pick (fun c => tryDescriptor names page c.1 c.2) (candidates page) st).2.dev.Safe ↔
          names.Roomy (taken names page k).2 ∧ names.Room (taken names page k).2 (converted page c.2)) := by
  refine search_rel names page st (R := fun dev k => Tried names k dev)
    (Q := fun c dev k => dev.Safe ↔ names.Roomy k ∧ names.Room k (converted page c.2)) (fun _ _ h => h.serial) ?_ ?_ h
  · intro c dev k htried hc
    have hfirst : (front names c.1.idType dev.serial).mem 0 ≠ 0 := by
      rw [front_first htried.serial]
      have hfits := (fits_iff.mp (attempt_accepted hc).1).2.1
      exact hfits ▸ hexStr_ne_zero (page (c.2+1))
    exact fill_safe htried (front_left htried.serial hc) hfirst
  · intro c st k htried hc
    obtain ⟨-,hleft,hrest⟩ := check_failed htried.serial hc
    obtain ⟨hshort,hunit,hwwn,hext⟩ := rest_eq hrest
    exact ⟨hleft,hshort.trans htried.serialShort,hwwn.trans htried.wwn,hext.trans htried.wwnVendorExtension,
      hunit ▸ htried.unitSerialNumber⟩

end Steps

section Runs

/-- How far a run of `scsi_get_serial` has come: the attempts to prepend the names, the text that was put behind what they
left, and the inquiries. -/
structure Trial where
  attempts : ℕ := 0
  text : Option CString := none
  asked : ℕ := 0

/-- What the attempts left and the text behind it have room. -/
def Trial.Roomy (names : Names) (t : Trial) : Prop :=
  names.Roomy t.attempts ∧ ∀ text, t.text = some text → names.Room t.attempts text

theorem roomy_text {names : Names} {k : ℕ} (text : CString) (asked : ℕ) :
    Trial.Roomy names ⟨k,some text,asked⟩ ↔ names.Roomy k ∧ names.Room k text :=
  and_congr_right fun _ => ⟨fun hall => hall _ rfl,fun hroom _ htext => Option.some.inj htext ▸ hroom⟩

variable (names : Names) (replies : ℕ → Option Memory)

def trial83 (t : Trial) : Bool × Trial :=
  match replies (t.asked+1) with
  | none => (false,{ t with asked := t.asked+2 })
  | some page =>
    if page 1 ≠ 0x83 then (false,{ t with asked := t.asked+2 })
    else if page 6 ≠ 0 then (true,{ t with asked := t.asked+2 })
    else
      let r := taken names page t.attempts
      (r.1.isSome,⟨r.2,r.1.map fun c => converted page c.2,t.asked+2⟩)

def trial80 (t : Trial) : Bool × Trial :=
  match page80Serial (replies t.asked) with
  | none => (false,{ t with asked := t.asked+1 })
  | some number =>
    if names.Full (t.attempts+1) then (true,⟨t.attempts+1,some number,t.asked+1⟩)
    else (false,⟨t.attempts+1,none,t.asked+1⟩)

/-- The raw identifier that `do_scsi_page83_prespc3_inquiry` copies as a whole. -/
def rawIdentifier (page : Memory) : CString := ((List.range (page 3).toNat).map fun i => page (4+i)).flatMap hexPair

def trial (pageCode : PageCode) : Trial :=
  match pageCode with
  | .page80 => (trial80 names replies {}).2
  | .page83 => (trial83 names replies {}).2
  | .page83Prespc3 =>
    match replies 0 with
    | none => { asked := 1 }
    | some page =>
      if page 1 ≠ 0x83 then { asked := 1 }
      else if page 6 = 0 then (trial83 names replies { asked := 1 }).2
      else { text := some (rawIdentifier page), asked := 1 }
  | .unspecified =>
    match doScsiPage0Inquiry names (replies 0) with
    | none => { asked := 1 }
    | some page0 =>
      let entries := List.range' 4 (page0 3).toNat
      let r := searchLoop (fun ind t => if page0 ind = 0x83 then trial83 names replies t else (false,t)) entries { asked := 1 }
      if r.1 then r.2
      else (searchLoop (fun ind t => if page0 ind = 0x80 then trial80 names replies t else (false,t)) entries r.2).2

variable {names replies}

def Goes (names : Names) (s : Session) (t : Trial) : Prop := Tried names t.attempts s.dev ∧ t.text = none ∧ t.asked = s.asked

def Ends (names : Names) (s : Session) (t : Trial) : Prop := s.dev.Safe ↔ t.Roomy names

theorem Goes.ends {s : Session} {t : Trial} (h : Goes names s t) : Ends names s t := by
  refine h.1.safe.trans (and_iff_left fun text htext => ?_).symm
  rw [h.2.1] at htext
  cases htext

theorem page80_length {reply : Option Memory} {number : CString} (h : page80Serial reply = some number) :
    number.length+(1+vendorLength+modelLength) ≤ maxSerialLen := by
  obtain ⟨buf,-,hbuf⟩ := Option.bind_eq_some_iff.mp h
  by_cases hpage : buf 1 = 0x80
  · rw [if_neg (not_not.mpr hpage)] at hbuf
    by_cases hlong : maxSerialLen < 1+vendorLength+modelLength+(buf 3).toNat
    · rw [if_pos hlong] at hbuf
      cases hbuf
    · rw [if_neg hlong] at hbuf
      obtain rfl := Option.some.inj hbuf
      rw [List.length_map,List.length_range]
      omega
  · rw [if_pos hpage] at hbuf
    cases hbuf

theorem unit_safe (reply : Option Memory) {f : Field} (h : f.Safe maxSerialLen) :
    (doScsiPage80Inquiry names reply none f).2.2.Safe maxSerialLen := by
  rw [doScsiPage80Inquiry]
  cases hnumber : page80Serial reply with
  | none => exact h
  | some number =>
    have hlen := page80_length hnumber
    have hbytes : (number ++ [(0 : UInt8)]).length = number.length+1 := List.length_append
    refine ⟨(inside_write _ _ _ _).mpr ⟨h.inside,fun _ => by omega⟩,number.length,by omega,?_⟩
    have hat := write_at f.mem 0 (s := number ++ [0]) (i := number.length) (by omega)
    rw [Nat.zero_add] at hat
    exact hat.trans (charAt_append_right number [0] 0)

/-- A step of a session and of the trial that it follows. -/
def Follows (names : Names) (r : Bool × Session) (a : Bool × Trial) : Prop :=
  r.1 = a.1 ∧ (a.1 = false → Goes names r.2 a.2) ∧ (a.1 = true → Ends names r.2 a.2)

theorem Follows.ends {r : Bool × Session} {a : Bool × Trial} (h : Follows names r a) : Ends names r.2 a.2 := by
  obtain ⟨-,hgoes,hends⟩ := h
  cases hret : a.1 with
  | false => exact (hgoes hret).ends
  | true => exact hends hret

theorem Goes.follows {s : Session} {t : Trial} (h : Goes names s t) : Follows names (false,s) (false,t) :=
  ⟨rfl,fun _ => h,fun hret => absurd hret Bool.false_ne_true⟩

theorem Ends.follows {s : Session} {t : Trial} (h : Ends names s t) : Follows names (true,s) (true,t) :=
  ⟨rfl,fun hret => absurd hret.symm Bool.false_ne_true,fun _ => h⟩

theorem inquirePage83_follows {s : Session} {t : Trial} (h : Goes names s t) :
    Follows names (inquirePage83 names replies s) (trial83 names replies t) := by
  obtain ⟨htried,htext,hasked⟩ := h
  have hunit : Tried names t.attempts { s.dev with
      unitSerialNumber := (doScsiPage80Inquiry names (replies s.asked) none s.dev.unitSerialNumber).2.2 } :=
    { htried with unitSerialNumber := unit_safe _ htried.unitSerialNumber }
  rw [inquirePage83,trial83,hasked]
  cases replies (s.asked+1) with
  | none => exact Goes.follows ⟨hunit,htext,rfl⟩
  | some page =>
    rw [doScsiPage83Inquiry]
    by_cases hpage : page 1 = 0x83
    · by_cases hspc : page 6 = 0
      · simp only [hpage,hspc,ne_eq,not_true,if_false]
        rw [search_pairs,searchLoop]
        obtain ⟨hsame,hnone,hsome⟩ := search_safe page ⟨_,[1,6,3],[]⟩ hunit
        rw [hsame]
        cases htaken : (taken names page t.attempts).1 with
        | none => exact Goes.follows ⟨hnone htaken,rfl,rfl⟩
        | some c =>
          exact Ends.follows ((hsome c htaken).trans (roomy_text _ _).symm)
      · simp only [hpage,hspc,ne_eq,not_true,not_false_iff,if_false,if_true]
        refine Ends.follows ((prespc3_safe hunit).trans (and_iff_left fun text h => ?_).symm)
        rw [htext] at h
        cases h
    · simp only [hpage,ne_eq,not_false_iff,if_true]
      exact Goes.follows ⟨hunit,htext,rfl⟩

theorem inquirePage80_follows {s : Session} {t : Trial} (h : Goes names s t) :
    Follows names (inquirePage80 names replies s) (trial80 names replies t) := by
  obtain ⟨htried,htext,hasked⟩ := h
  rw [inquirePage80,trial80,doScsiPage80Inquiry,hasked]
  cases hnumber : page80Serial (replies s.asked) with
  | none => exact Goes.follows ⟨htried,htext,rfl⟩
  | some number =>
    have hprefix := htried.serial.write_zero (chr 'S')
    have hok := prepend_ok hprefix
    have hleft := prepend_left hprefix
    by_cases hfull : names.Full (t.attempts+1)
    · rw [decide_eq_true hfull] at hok
      simp only [hok,hfull,if_true,Bool.true_eq_false,if_false,Option.getD_some]
      have hfirst : (prependVendorModel names (s.dev.serial.write 0 [chr 'S']) 1).2.mem 0 ≠ 0 := by
        rw [prepend_first hprefix]
        exact show chr 'S' ≠ 0 by decide
      have hbehind : (prependVendorModel names (s.dev.serial.write 0 [chr 'S']) 1).2.strlen 0 =
          1+(vendorLength+modelLength) := by
        rw [hleft.length hfirst,hfull]
        rfl
      have hshort : (Field.strcpy {} 0 number).Safe maxSerialLen := safe_strcpy (by
        have hlen := page80_length hnumber
        omega)
      have hdev : ∀ serial, ScsiIdDevice.Safe { s.dev with serial, serialShort := Field.strcpy {} 0 number } ↔
          serial.Safe maxSerialLen := fun serial =>
        safe_iff_serial hshort htried.unitSerialNumber htried.safe_wwn htried.safe_extension
      have hserial := write_safe number hleft hfirst
      rw [hbehind] at hserial
      rw [htried.serialShort]
      exact Ends.follows (((hdev _).trans hserial).trans (roomy_text _ _).symm)
    · rw [decide_eq_false hfull] at hok
      simp only [hok,hfull,if_true,if_false,Option.getD_some]
      exact Goes.follows ⟨{ htried with serial := hleft },rfl,rfl⟩

theorem entries_follow {inquire : Session → Bool × Session} {step : Trial → Bool × Trial}
    (hstep : ∀ s t, Goes names s t → Follows names (inquire s) (step t)) (page0 : Memory) (code : UInt8) (l : List ℕ)
    {s : Session} {t : Trial} (h : Goes names s t) :
    Follows names (searchLoop (fun ind s => if page0 ind = code then inquire s else (false,s)) l s)
      (searchLoop (fun ind t => if page0 ind = code then step t else (false,t)) l t) := by
  have hentry : ∀ (ind : ℕ) (s : Session) (t : Trial), Goes names s t →
      Follows names (if page0 ind = code then inquire s else (false,s)) (if page0 ind = code then step t else (false,t)) := by
    intro ind s t hgoes
    by_cases hcode : page0 ind = code
    · rw [if_pos hcode,if_pos hcode]
      exact hstep s t hgoes
    · rw [if_neg hcode,if_neg hcode]
      exact hgoes.follows
  obtain ⟨hsame,hnone,hsome⟩ := pick_rel (Q := fun _ s t => Ends names s t) hentry l h
  refine ⟨congrArg Option.isSome hsame,fun hfalse => hnone ?_,fun htrue => ?_⟩
  · exact Option.isNone_iff_eq_none.mp (Option.isSome_eq_false_iff.mp hfalse)
  · obtain ⟨ind,hind⟩ := Option.isSome_iff_exists.mp htrue
    exact hsome ind hind

theorem goes_start (names : Names) (n : ℕ) : Goes names ⟨{},n⟩ { asked := n } := ⟨tried_start names,rfl,rfl⟩

theorem prespc3_ends (names : Names) (replies : ℕ → Option Memory) :
    Ends names (scsiGetSerial names replies .page83Prespc3).2 (trial names replies .page83Prespc3) := by
  rw [scsiGetSerial,trial]
  cases replies 0 with
  | none => exact (goes_start names 1).ends
  | some page =>
    rw [doScsiPage83Prespc3Inquiry]
    by_cases hpage : page 1 = 0x83
    · by_cases hspc : page 6 = 0
      · simp only [hpage,hspc,ne_eq,not_true,if_false,if_true]
        exact (inquirePage83_follows (goes_start names 1)).ends
      · simp only [hpage,hspc,ne_eq,not_true,if_false]
        have hfirst : (Field.write {} 0 [hexStr scsiIdTgtgroup]).mem 0 ≠ 0 := show hexStr scsiIdTgtgroup ≠ 0 by decide
        have hzero : Left names 0 {} := left_zero
        have hserial := write_safe (rawIdentifier page) (hzero.write_zero _) hfirst
        have hdev : ∀ serial, ScsiIdDevice.Safe { serial } ↔ serial.Safe maxSerialLen := fun _ =>
          safe_iff_serial safe_empty safe_empty (safe_zero 16) (safe_zero 16)
        exact (hdev _).trans (hserial.trans (roomy_text _ _).symm)
    · simp only [hpage,ne_eq,not_false_iff,if_true]
      exact (goes_start names 1).ends

theorem unspecified_ends (names : Names) (replies : ℕ → Option Memory) :
    Ends names (scsiGetSerial names replies .unspecified).2 (trial names replies .unspecified) := by
  rw [scsiGetSerial,trial]
  cases doScsiPage0Inquiry names (replies 0) with
  | none => exact (goes_start names 1).ends
  | some page0 =>
    have hstep : ∀ s t, Goes names s t → Follows names (inquirePage83 names replies s) (trial83 names replies t) :=
      fun _ _ => inquirePage83_follows
    have hfirst := entries_follow hstep page0 0x83 (List.range' 4 (page0 3).toNat) (goes_start names 1)
    by_cases hret : (searchLoop (fun ind t => if page0 ind = 0x83 then trial83 names replies t else (false,t))
        (List.range' 4 (page0 3).toNat) { asked := 1 }).1 = true
    · simp only [hret,hfirst.1.trans hret,if_true]
      exact hfirst.2.2 hret
    · rw [Bool.not_eq_true] at hret
      simp only [hret,hfirst.1.trans hret,Bool.false_eq_true,if_false]
      exact (entries_follow (fun s t h => inquirePage80_follows h) page0 0x80 _ (hfirst.2.1 hret)).ends

end Runs

/-- The fields that `scsi_get_serial` fills are terminated inside their arrays, and formatted inside the buffers, if and
only if the names that its attempts left, the text behind them and a `NUL` have room in the serial number. -/
theorem serial_fields (names : Names) (replies : ℕ → Option Memory) (pageCode : PageCode) :
    (scsiGetSerial names replies pageCode).2.dev.Protected ↔ (trial names replies pageCode).Roomy names := by
  rw [protected_iff]
  cases pageCode with
  | unspecified => exact unspecified_ends names replies
  | page80 => exact (inquirePage80_follows (goes_start names 0)).ends
  | page83 => exact (inquirePage83_follows (goes_start names 0)).ends
  | page83Prespc3 => exact prespc3_ends names replies

/-- A page 0x80 whose serial number takes all the room that its length check leaves. -/
def longPage80 : Memory := fun i => if i = 1 then 0x80 else if i = 3 then 231 else chr 'a'

/-- The check counts the type and the names, but not the terminator. -/
theorem serial_fields_page80 : ¬∀ names replies pageCode, (scsiGetSerial names replies pageCode).2.dev.Protected := by
  intro h
  have hsafe := protected_iff.mp (h fullNames (fun _ => some longPage80) .page80)
  have hroomy := (inquirePage80_follows (goes_start fullNames 0)).ends.mp hsafe
  obtain ⟨number,hnumber,hlen,hnul⟩ : ∃ number, page80Serial (some longPage80) = some number ∧
      number.length = 231 ∧ 0 ∉ number := by
    refine ⟨(List.range (longPage80 3).toNat).map fun i => longPage80 (4+i),rfl,?_,fun hmem => ?_⟩
    · rw [List.length_map,List.length_range]
      rfl
    · obtain ⟨i,-,hi⟩ := List.mem_map.mp hmem
      rw [longPage80,if_neg (by omega),if_neg (by omega)] at hi
      exact absurd hi (by decide)
  have htrial : trial80 fullNames (fun _ => some longPage80) { asked := 0 } = (true,⟨1,some number,1⟩) := by
    rw [trial80,hnumber]
    exact if_pos (full_one (by decide) (by decide))
  rw [htrial] at hroomy
  have hroom : fullNames.Room 1 number := hroomy.2 number rfl
  rw [Names.Room,leftover_one,hlen] at hroom
  rcases hroom with hbelow | hfull
  · exact absurd hbelow (by decide)
  · exact hnul hfull.2

end Scsi
end Udev
