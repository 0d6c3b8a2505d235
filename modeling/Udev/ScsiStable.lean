import Udev.ScsiSearch
import Udev.StableSort

/-! Which descriptor of a well-formed page 0x83 gives the identifier: the first in the order of the search list
and of the page. So the order of the page does not matter where no two descriptors match the same line first. -/
namespace Udev
namespace Scsi

open CString Memory SearchLoop StableSort

section Descriptors

/-- A descriptor with the bytes of its header, but for the length. -/
@[ext]
structure Descriptor where
  codeSet : UInt8
  kind : UInt8
  reserved : UInt8
  identifier : CString
  short : identifier.length < 256

namespace Descriptor

variable (d : Descriptor)

def bytes : CString := d.codeSet::d.kind::d.reserved::UInt8.ofNat d.identifier.length::d.identifier

def idType : UInt8 := d.kind &&& 0x0f

/-- A line of the search list is about the descriptor. -/
def matchesLine (id : SearchValues) : Bool :=
  (if d.kind &&& 0x30 = 0x10 then id.idType = scsiIdTgtgroup else d.kind &&& 0x30 = 0) &&
    (d.idType = id.idType) &&
    (id.naaType = scsiIdNaaDontCare ∨ id.naaType = (charAt d.identifier 0 &&& 0xf0) >>> 4) &&
    (d.codeSet &&& 0x0f = id.codeSet)

/-- The smallest matching index in the search list. -/
def index : ℕ := idSearchList.findIdx d.matchesLine

def converted : CString :=
  if d.codeSet &&& 0x0f = scsiIdAscii then d.identifier else d.identifier.flatMap hexPair

/-- The text fits behind the type, with the names in front of a vendor specific one and the terminator. -/
def textFits : Bool :=
  d.converted.length+2+(if d.idType = scsiIdVendorSpecific then vendorLength+modelLength else 0) ≤ maxSerialLen

/-- A descriptor that may give the identifier: the group of a target port does not. -/
def usable : Bool := idSearchList.any d.matchesLine && (d.textFits && d.idType ≠ scsiIdTgtgroup)

def admits (id : SearchValues) : Bool := d.matchesLine id && (d.textFits && d.idType ≠ scsiIdTgtgroup)

/-- The same line of the search list matches both descriptors first. -/
def SameLine (a b : Descriptor) : Prop := idSearchList.any a.matchesLine = true ∧ a.index = b.index

instance (a b : Descriptor) : Decidable (SameLine a b) := inferInstanceAs (Decidable (_ ∧ _))

def text : CString := d.converted.takeWhile (· ≠ 0)

def serial (names : Names) : CString :=
  hexStr d.idType::(if d.idType = scsiIdVendorSpecific then names.vendor ++ names.model else []) ++ d.text

end Descriptor

def descriptorAt (page : Memory) (j : ℕ) : Descriptor where
  codeSet := page j
  kind := page (j+1)
  reserved := page (j+2)
  identifier := identifier page j
  short := by
    rw [identifier,List.length_map,List.length_range]
    exact (page (j+3)).toNat_lt

/-- A page whose descriptors fill it exactly. In the format of SPC-2 and SPC-3 the third byte of the first is zero. -/
structure WellFormed (page : Memory) (ds : List Descriptor) : Prop where
  code : page 1 = 0x83
  format : page 6 = 0
  length : (page 3).toNat = (ds.flatMap Descriptor.bytes).length
  inside : 4+(ds.flatMap Descriptor.bytes).length ≤ scsiInqBuffLen
  holds : HoldsAt page 4 (ds.flatMap Descriptor.bytes)

/-- An identifier by the network address authority begins with the kind of the address. -/
def Addressed (ds : List Descriptor) : Prop := ∀ d ∈ ds, d.idType = scsiIdNaa → d.identifier ≠ []

variable {page : Memory} {ds : List Descriptor} {j : ℕ}

theorem map_charAt (s : CString) : (List.range s.length).map (charAt s) = s := by
  refine List.ext_getElem (by rw [List.length_map,List.length_range]) fun i _ hi => ?_
  rw [List.getElem_map,List.getElem_range,charAt,List.getD_eq_getElem s 0 hi]

theorem descriptorAt_eq {d : Descriptor} {rest : CString} (h : HoldsAt page j (d.bytes ++ rest)) :
    descriptorAt page j = d ∧ (page (j+3)).toNat = d.identifier.length := by
  have hbytes := h.left
  have hkind := hbytes.tail
  have hreserved := hkind.tail
  have hlength := hreserved.tail
  have hidentifier := hlength.tail
  have hlen : (page (j+3)).toNat = d.identifier.length := by
    have hbyte : page (j+3) = UInt8.ofNat d.identifier.length := hlength.head
    rw [hbyte]
    exact UInt8.toNat_ofNat_of_lt d.short
  refine ⟨Descriptor.ext hbytes.head hkind.head hreserved.head ?_,hlen⟩
  change identifier page j = d.identifier
  rw [identifier,hlen]
  refine Eq.trans (List.map_congr_left fun i hi => ?_) (map_charAt d.identifier)
  exact hidentifier i (List.mem_range.mp hi)

theorem walk_descriptors (h : HoldsAt page j (ds.flatMap Descriptor.bytes))
    (hend : j+(ds.flatMap Descriptor.bytes).length = (page 3).toNat+4) : (walk page j).map (descriptorAt page) = ds := by
  induction ds generalizing j with
  | nil =>
    rw [List.flatMap_nil,List.length_nil] at hend
    rw [walk,if_neg (by omega)]
    rfl
  | cons d ds ih =>
    rw [List.flatMap_cons] at h hend
    obtain ⟨hd,hlen⟩ := descriptorAt_eq h
    have hbytes : d.bytes.length = d.identifier.length+4 := rfl
    rw [List.length_append,hbytes] at hend
    rw [walk,if_pos (by omega),List.map_cons,hd,hlen,ih (j := j+(d.identifier.length+4)) h.right (by omega)]

theorem converted_length (d : Descriptor) :
    d.converted.length = if d.codeSet &&& 0x0f = scsiIdAscii then d.identifier.length else d.identifier.length*2 := by
  rw [Descriptor.converted]
  by_cases hascii : d.codeSet &&& 0x0f = scsiIdAscii
  · rw [if_pos hascii,if_pos hascii]
  · rw [if_neg hascii,if_neg hascii,hexPairs_length]

theorem identifier_length (page : Memory) (j : ℕ) : (identifier page j).length = (page (j+3)).toNat := by
  rw [identifier,List.length_map,List.length_range]

/-- The room that a line asks for is what the text of the descriptor needs. -/
theorem needed_iff {id : SearchValues} (htype : page (j+1) &&& 0x0f = id.idType) :
    needed page j id ≤ maxSerialLen ↔ (descriptorAt page j).textFits = true := by
  have hlen := converted_length (descriptorAt page j)
  change _ = if page j &&& 0x0f = scsiIdAscii then (identifier page j).length else (identifier page j).length*2 at hlen
  have hkind : (descriptorAt page j).idType = id.idType := htype
  rw [identifier_length] at hlen
  rw [Descriptor.textFits,decide_eq_true_iff,hlen,hkind,needed]
  simp only [ne_eq,ite_not]
  split_ifs <;> rfl

theorem address_kind (hne : (descriptorAt page j).identifier ≠ []) :
    charAt (descriptorAt page j).identifier 0 = page (j+4) := by
  have hpos := List.length_pos_iff.mpr hne
  change charAt (identifier page j) 0 = _
  change 0 < (identifier page j).length at hpos
  rw [charAt,List.getD_eq_getElem _ _ hpos]
  simp only [identifier,List.getElem_map,List.getElem_range,Nat.add_zero]

theorem fits_admits {id : SearchValues} (hid : id ∈ idSearchList)
    (haddress : (descriptorAt page j).idType = scsiIdNaa → (descriptorAt page j).identifier ≠ []) :
    (fits page j id && decide (id.idType ≠ scsiIdTgtgroup)) = (descriptorAt page j).admits id := by
  have hkind : ∀ htype : page (j+1) &&& 0x0f = id.idType,
      (id.naaType = scsiIdNaaDontCare ∨ id.naaType = (page (j+4) &&& 0xf0) >>> 4) ↔
        (id.naaType = scsiIdNaaDontCare ∨
          id.naaType = (charAt (descriptorAt page j).identifier 0 &&& 0xf0) >>> 4) := by
    intro htype
    by_cases hcare : id.naaType = scsiIdNaaDontCare
    · exact iff_of_true (Or.inl hcare) (Or.inl hcare)
    · rw [address_kind (haddress (htype.trans (address_lines id hid hcare)))]
  rw [Bool.eq_iff_iff,Bool.and_eq_true,fits_iff,decide_eq_true_iff,Descriptor.admits,Descriptor.matchesLine]
  simp only [Bool.and_eq_true,decide_eq_true_iff]
  constructor
  · rintro ⟨⟨hassoc,htype,haddr,hset,hroom⟩,hgroup⟩
    exact ⟨⟨⟨⟨hassoc,htype⟩,(hkind htype).mp haddr⟩,hset⟩,(needed_iff htype).mp hroom,
      fun h => hgroup (htype.symm.trans h)⟩
  · rintro ⟨⟨⟨⟨hassoc,htype⟩,haddr⟩,hset⟩,hroom,hgroup⟩
    exact ⟨⟨hassoc,htype,(hkind htype).mpr haddr,hset,(needed_iff htype).mpr hroom⟩,
      fun h => hgroup (htype.trans h)⟩

end Descriptors

section Search

variable {names : Names} {page : Memory}

theorem mem_candidates {c : SearchValues × ℕ} (hc : c ∈ candidates page) : c.1 ∈ idSearchList ∧ c.2 ∈ walk page 4 := by
  obtain ⟨id,hid,hc⟩ := List.mem_flatMap.mp hc
  obtain ⟨j,hj,rfl⟩ := List.mem_map.mp hc
  exact ⟨hid,hj⟩

theorem taken_find (hfull : names.Full 1) (haddress : Addressed ((walk page 4).map (descriptorAt page))) :
    (taken names page 0).1 = (candidates page).find? fun c => (descriptorAt page c.2).admits c.1 := by
  refine pick_find fun c hc => ?_
  obtain ⟨hid,hj⟩ := mem_candidates hc
  rw [← fits_admits hid (haddress _ (List.mem_map_of_mem hj)),attempt]
  by_cases hfits : fits page c.2 c.1 = true ∧ c.1.idType ≠ scsiIdTgtgroup
  · rw [if_pos hfits,hfits.1,decide_eq_true hfits.2]
    refine ⟨?_,fun h => absurd h.symm Bool.false_ne_true⟩
    split_ifs
    · exact decide_eq_true hfull
    · rfl
  · rw [if_neg hfits]
    refine ⟨(Bool.eq_false_iff.mpr fun h => hfits ?_).symm,fun _ => rfl⟩
    rw [Bool.and_eq_true,decide_eq_true_iff] at h
    exact h

theorem admits_type {d : Descriptor} {id : SearchValues} (h : d.admits id = true) : d.idType = id.idType := by
  rw [Descriptor.admits,Descriptor.matchesLine] at h
  simp only [Bool.and_eq_true,decide_eq_true_iff] at h
  exact h.1.1.1.2

theorem any_admits (d : Descriptor) : (idSearchList.any fun id => d.admits id) = d.usable := by
  unfold Descriptor.admits Descriptor.usable
  generalize (d.textFits && decide (d.idType ≠ scsiIdTgtgroup)) = room
  cases room with
  | false =>
    simp only [Bool.and_false]
    exact List.any_eq_false.mpr fun _ _ => Bool.false_ne_true
  | true => simp only [Bool.and_true]

theorem findIdx_admits {d : Descriptor} (h : d.usable = true) : (idSearchList.findIdx fun id => d.admits id) = d.index := by
  rw [Descriptor.usable,Bool.and_eq_true] at h
  rw [Descriptor.index]
  congr 1
  funext id
  rw [Descriptor.admits,h.2,Bool.and_true]

/-- The descriptor that is taken is the first in the order of the search list and of the page. -/
theorem taken_first (hfull : names.Full 1) (haddress : Addressed ((walk page 4).map (descriptorAt page))) {c : SearchValues × ℕ}
    (h : (taken names page 0).1 = some c) :
    First Descriptor.index (((walk page 4).map (descriptorAt page)).filter Descriptor.usable) (descriptorAt page c.2) := by
  rw [taken_find hfull haddress] at h
  have hfirst := find_pairs (p := fun id j => (descriptorAt page j).admits id) h
  simp only [any_admits] at hfirst
  rw [List.filter_map]
  refine First.map (hfirst.congr fun j hj => ?_)
  exact (findIdx_admits (List.mem_filter.mp hj).2).symm

theorem check_failed_full (hfull : names.Full 1) {c : SearchValues × ℕ} {s : Scan}
    (hc : (attempt names page c 0).1 = false) : (attempt names page c 0).2 = 0 ∧
      ∃ g, (checkFill0x83Id page c.2 names c.1 s).2.dev = { s.dev with tgptGroup := g } := by
  by_cases hfits : fits page c.2 c.1 = true
  · have hgroup : c.1.idType = scsiIdTgtgroup := by
      by_contra hne
      exact (attempt_failed hc hfits hne).2 hfull
    rw [check_group hfits hgroup,attempt,if_neg fun h => h.2 hgroup]
    exact ⟨rfl,(s.group page c.2 c.1).dev.tgptGroup,rfl⟩
  · rw [check_rejected (Bool.eq_false_iff.mpr hfits),attempt,if_neg fun h => hfits h.1]
    exact ⟨rfl,s.dev.tgptGroup,rfl⟩

variable (page) in
/-- The search from a device without a serial number, for names of full length. -/
theorem search_device (hfull : names.Full 1) (st : Scan) (hserial : st.dev.serial = {}) :
    (pick (fun c => tryDescriptor names page c.1 c.2) (candidates page) st).1 = (taken names page 0).1 ∧
      ((taken names page 0).1 = none → ∃ g,
        (pick (fun c => tryDescriptor names page c.1 c.2) (candidates page) st).2.dev = { st.dev with tgptGroup := g }) ∧
      ∀ c, (taken names page 0).1 = some c → ∃ g,
        (pick (fun c => tryDescriptor names page c.1 c.2) (candidates page) st).2.dev =
          fillDevice (converted page c.2) c.1.idType (front names c.1.idType {}) { st.dev with tgptGroup := g } := by
  have hblank : ∀ {dev : ScsiIdDevice} {g : CString}, dev = { st.dev with tgptGroup := g } → dev.serial = {} :=
    fun h => (congrArg ScsiIdDevice.serial h).trans hserial
  obtain ⟨hsame,hnone,hsome⟩ := search_rel names page st
    (R := fun dev k => k = 0 ∧ ∃ g, dev = { st.dev with tgptGroup := g })
    (Q := fun c dev _ => ∃ g,
      dev = fillDevice (converted page c.2) c.1.idType (front names c.1.idType {}) { st.dev with tgptGroup := g })
    (by
      rintro dev k ⟨rfl,g,hdev⟩
      exact hblank hdev ▸ left_zero)
    (by
      rintro c dev k ⟨rfl,g,hdev⟩ -
      exact ⟨g,by rw [hblank hdev,hdev]⟩)
    (by
      rintro c s k ⟨rfl,g,hdev⟩ hc
      obtain ⟨hk,g',hrest⟩ := check_failed_full (s := s) hfull hc
      exact ⟨hk,g',by rw [hrest,hdev]⟩)
    ⟨rfl,st.dev.tgptGroup,rfl⟩
  exact ⟨hsame,fun h => (hnone h).2,hsome⟩

end Search

section Text

variable {names : Names} {k : ℕ} {f : Field} {bytes : CString}

theorem takeWhile_nul (s : CString) : 0 ∉ s.takeWhile (· ≠ 0) := fun h => by
  simpa using List.mem_takeWhile_imp h

/-- The serial number reads as the prefix and the text of the identifier. -/
theorem filled_text (h : Left names k f) (hfirst : f.mem 0 ≠ 0)
    (hroom : 1+(names.leftover k).length+bytes.length < maxSerialLen) :
    (f.write (f.strlen 0) bytes).text 0 = f.mem 0::(names.leftover k ++ bytes.takeWhile (· ≠ 0)) ∧
      (f.write (f.strlen 0) bytes).text (f.strlen 0) = bytes.takeWhile (· ≠ 0) := by
  have hlen : f.strlen 0 = 1+(names.leftover k).length := by
    rw [h.length hfirst]
    omega
  have hshort := (List.takeWhile_prefix (· ≠ (0 : UInt8)) (l := bytes)).length_le
  have htail : ∀ i, i ≤ (bytes.takeWhile (· ≠ 0)).length →
      (f.write (f.strlen 0) bytes).mem (1+(names.leftover k).length+i) = charAt (bytes.takeWhile (· ≠ 0)) i := by
    intro i hi
    rw [filled_at h hfirst (by omega),charAt_takeWhile bytes hi]
  constructor
  · rw [Field.text,textFrom_take (s := f.mem 0::(names.leftover k ++ bytes.takeWhile (· ≠ 0))) ?_ ?_,
      List.take_of_length_le (by rw [List.length_cons,List.length_append]; omega)]
    · intro i hi hle
      rw [List.length_cons,List.length_append] at hle
      rw [Nat.zero_add]
      cases i with
      | zero => exact write_of_not _ _ (Or.inl (by omega))
      | succ i =>
        change _ = charAt (names.leftover k ++ bytes.takeWhile (· ≠ 0)) i
        by_cases hfront : i < (names.leftover k).length
        · rw [charAt_append_left hfront,write_mem,write_of_not _ _ (Or.inl (by omega)),Nat.add_comm]
          exact h.holds i (by omega)
        · obtain ⟨j,rfl⟩ := Nat.exists_eq_add_of_le (Nat.le_of_not_lt hfront)
          rw [charAt_append_right,← htail j (by omega)]
          congr 1
          omega
    · rw [List.mem_cons,List.mem_append,not_or,not_or]
      exact ⟨Ne.symm hfirst,leftover_nul,takeWhile_nul bytes⟩
  · rw [Field.text,textFrom_take (s := bytes.takeWhile (· ≠ 0)) ?_ (takeWhile_nul bytes),
      List.take_of_length_le (by omega)]
    intro i _ hle
    rw [← htail i hle,hlen]

theorem strcpy_text {t : CString} (hnul : 0 ∉ t) (hlen : t.length < maxSerialLen) :
    (Field.strcpy {} 0 t).text 0 = t := by
  rw [Field.text,textFrom_take (s := t) ?_ hnul,List.take_of_length_le (by omega)]
  intro i _ hle
  rw [Field.strcpy,write_mem,write_at _ _ (by rw [List.length_append,List.length_singleton]; omega)]
  exact charAt_pad t 1 i

/-- What a descriptor gives, put into a device whose fields are zero. -/
def Descriptor.device (names : Names) (d : Descriptor) : ScsiIdDevice :=
  fillDevice d.converted d.idType (front names d.idType {}) {}

theorem fillDevice_rest (bytes : CString) (idType : UInt8) (serial unit : Field) (g : CString) :
    fillDevice bytes idType serial { unitSerialNumber := unit, tgptGroup := g } =
      { fillDevice bytes idType serial {} with unitSerialNumber := unit, tgptGroup := g } := by
  rw [fillDevice,fillDevice]
  split_ifs <;> rfl

theorem device_serial (bytes : CString) (idType : UInt8) (serial : Field) :
    (fillDevice bytes idType serial {}).serial = serial.write (serial.strlen 0) bytes ∧
      (fillDevice bytes idType serial {}).serialShort =
        Field.strcpy {} 0 ((serial.write (serial.strlen 0) bytes).text (serial.strlen 0)) := by
  rw [fillDevice]
  split_ifs <;> exact ⟨rfl,rfl⟩

theorem device_text {d : Descriptor} (hfits : d.textFits = true) :
    (d.device names).serial.text 0 = d.serial names ∧ (d.device names).serialShort.text 0 = d.text := by
  have hfirst : (front names d.idType {}).mem 0 = hexStr d.idType := front_first left_zero d.idType
  have hne : (front names d.idType {}).mem 0 ≠ 0 := by
    rw [hfirst]
    exact hexStr_ne_zero d.kind
  obtain ⟨k,hleft,hk⟩ : ∃ k, Left names k (front names d.idType {}) ∧
      names.leftover k = if d.idType = scsiIdVendorSpecific then names.vendor ++ names.model else [] := by
    rw [front]
    by_cases hvendor : d.idType = scsiIdVendorSpecific
    · rw [if_pos hvendor,if_pos hvendor]
      exact ⟨1,prepend_left (left_zero.write_zero _),leftover_one names⟩
    · rw [if_neg hvendor,if_neg hvendor]
      exact ⟨0,left_zero.write_zero _,rfl⟩
  have hroom : 1+(names.leftover k).length+d.converted.length < maxSerialLen := by
    have hneeded := of_decide_eq_true hfits
    have hvendor := names.vendor_len
    have hmodel := names.model_len
    rw [hk]
    split_ifs at hneeded ⊢
    · rw [List.length_append]
      omega
    · rw [List.length_nil]
      omega
  obtain ⟨htext,hshort⟩ := filled_text hleft hne hroom
  have hlen := (List.takeWhile_prefix (· ≠ (0 : UInt8)) (l := d.converted)).length_le
  obtain ⟨hserial,hserialShort⟩ := device_serial d.converted d.idType (front names d.idType {})
  rw [Descriptor.device,hserial,hserialShort,htext,hshort,strcpy_text (takeWhile_nul _) (by omega),hfirst,hk]
  exact ⟨rfl,rfl⟩

end Text

section Pages

variable {names : Names} {page : Memory} {ds : List Descriptor}

/-- `do_scsi_page83_inquiry` with a device whose fields are zero. -/
def inquired (names : Names) (reply80 : Option Memory) (page : Memory) : Bool × Scan :=
  doScsiPage83Inquiry names reply80 (some page) {}

theorem WellFormed.walk (h : WellFormed page ds) : (walk page 4).map (descriptorAt page) = ds :=
  walk_descriptors h.holds (by rw [h.length,Nat.add_comm])

theorem inquired_eq (hcode : page 1 = 0x83) (hformat : page 6 = 0) (reply80 : Option Memory) :
    inquired names reply80 page = searchLoop (fun c => tryDescriptor names page c.1 c.2) (candidates page)
      { dev := { unitSerialNumber := (doScsiPage80Inquiry names reply80 none {}).2.2 }, reads := [1,6,3] } := by
  rw [inquired,doScsiPage83Inquiry]
  simp only [hcode,hformat,ne_eq,not_true,if_false]
  exact search_pairs names page _

theorem inquired_taken (hfull : names.Full 1) (hcode : page 1 = 0x83) (hformat : page 6 = 0) (reply80 : Option Memory)
    {c : SearchValues × ℕ} (htaken : (taken names page 0).1 = some c)
    (htype : (descriptorAt page c.2).idType = c.1.idType) :
    (inquired names reply80 page).1 = true ∧ ∃ unit g, (inquired names reply80 page).2.dev =
      { (descriptorAt page c.2).device names with unitSerialNumber := unit, tgptGroup := g } := by
  rw [inquired_eq hcode hformat,searchLoop]
  obtain ⟨hsame,-,hsome⟩ := search_device page hfull
    { dev := { unitSerialNumber := (doScsiPage80Inquiry names reply80 none {}).2.2 }, reads := [1,6,3] } rfl
  obtain ⟨g,hdev⟩ := hsome c htaken
  rw [hsame,htaken]
  refine ⟨rfl,(doScsiPage80Inquiry names reply80 none {}).2.2,g,hdev.trans ?_⟩
  rw [← htype]
  exact fillDevice_rest _ _ _ _ g

/-- The identifier is that of the first descriptor in the order of the search list and of the page, if there is one. -/
theorem inquired_first (hfull : names.Full 1) (h : WellFormed page ds) (haddress : Addressed ds)
    (reply80 : Option Memory) :
    (∃ d unit g, First Descriptor.index (ds.filter Descriptor.usable) d ∧ (inquired names reply80 page).1 = true ∧
      (inquired names reply80 page).2.dev = { d.device names with unitSerialNumber := unit, tgptGroup := g }) ∨
    ∃ unit g, ds.filter Descriptor.usable = [] ∧ (inquired names reply80 page).1 = false ∧
      (inquired names reply80 page).2.dev = { unitSerialNumber := unit, tgptGroup := g } := by
  rw [← h.walk] at haddress
  have hfind := taken_find hfull haddress
  cases htaken : (taken names page 0).1 with
  | none =>
    right
    rw [inquired_eq h.code h.format,searchLoop]
    obtain ⟨hsame,hnone,-⟩ := search_device page hfull
      { dev := { unitSerialNumber := (doScsiPage80Inquiry names reply80 none {}).2.2 }, reads := [1,6,3] } rfl
    obtain ⟨g,hdev⟩ := hnone htaken
    rw [hsame,htaken]
    refine ⟨_,g,?_,rfl,hdev⟩
    rw [htaken,eq_comm,List.find?_eq_none] at hfind
    refine List.filter_eq_nil_iff.mpr fun d hd husable => ?_
    rw [← h.walk,List.mem_map] at hd
    obtain ⟨j,hj,rfl⟩ := hd
    rw [← any_admits,List.any_eq_true] at husable
    obtain ⟨id,hid,hadmits⟩ := husable
    exact hfind (id,j) (List.mem_flatMap.mpr ⟨id,hid,List.mem_map_of_mem hj⟩) hadmits
  | some c =>
    left
    have hfirst := taken_first hfull haddress htaken
    rw [htaken] at hfind
    have htype := admits_type (List.find?_some (p := fun c : SearchValues × ℕ => (descriptorAt page c.2).admits c.1)
      hfind.symm)
    obtain ⟨hret,unit,g,hdev⟩ := inquired_taken hfull h.code h.format reply80 htaken htype
    rw [h.walk] at hfirst
    exact ⟨descriptorAt page c.2,unit,g,hfirst,hret,hdev⟩

def pageOf (ds : List Descriptor) : Memory :=
  charAt ([0,0x83,0,UInt8.ofNat (ds.flatMap Descriptor.bytes).length] ++ ds.flatMap Descriptor.bytes)

theorem wellFormed_pageOf (hlen : 4+(ds.flatMap Descriptor.bytes).length ≤ scsiInqBuffLen) (hformat : pageOf ds 6 = 0) :
    WellFormed (pageOf ds) ds := by
  refine ⟨rfl,hformat,?_,hlen,fun k _ => charAt_append_right _ _ k⟩
  refine UInt8.toNat_ofNat_of_lt ?_
  rw [scsiInqBuffLen] at hlen
  change _ < 256
  omega

end Pages

/-- For names of full length, the identifier of a well-formed page is that of the first descriptor, in the order of the
smallest matching index and of the page, which is not a target port group and whose text fits. Pages whose descriptors
are permuted such that those of one line keep their order give the same fields. -/
theorem stable_identifier (names : Names) (hvendor : names.vendor.length = vendorLength)
    (hmodel : names.model.length = modelLength) (page : Memory) (ds : List Descriptor) (h : WellFormed page ds)
    (haddress : Addressed ds) (reply80 : Option Memory) :
    ((∃ d, First Descriptor.index (ds.filter Descriptor.usable) d ∧ (inquired names reply80 page).1 = true ∧
        (inquired names reply80 page).2.dev.serial.text 0 = d.serial names ∧
        (inquired names reply80 page).2.dev.serialShort.text 0 = d.text) ∨
      (ds.filter Descriptor.usable = [] ∧ (inquired names reply80 page).1 = false ∧
        (inquired names reply80 page).2.dev.serial.text 0 = [])) ∧
    ∀ page' ds' reply80', WellFormed page' ds' → Rearranges Descriptor.SameLine ds ds' →
      (inquired names reply80' page').2.dev.serial = (inquired names reply80 page).2.dev.serial ∧
      (inquired names reply80' page').2.dev.serialShort = (inquired names reply80 page).2.dev.serialShort ∧
      (inquired names reply80' page').2.dev.wwn = (inquired names reply80 page).2.dev.wwn := by
  have hfull := full_one hvendor hmodel
  constructor
  · rcases inquired_first hfull h haddress reply80 with ⟨d,unit,g,hfirst,hret,hdev⟩ | ⟨unit,g,hnone,hret,hdev⟩
    · left
      have hfits : d.textFits = true := by
        have husable := (List.mem_filter.mp hfirst.mem).2
        rw [Descriptor.usable,Bool.and_eq_true,Bool.and_eq_true] at husable
        exact husable.2.1
      rw [hdev]
      exact ⟨d,hfirst,hret,device_text hfits⟩
    · right
      rw [hdev]
      exact ⟨hnone,hret,rfl⟩
  · intro page' ds' reply80' h' hperm
    have hsame : ∀ k, (ds'.filter Descriptor.usable).filter (·.index = k) =
        (ds.filter Descriptor.usable).filter (·.index = k) := by
      intro k
      rw [List.filter_filter,List.filter_filter]
      refine hperm.filter_eq _ fun a _ b _ ha hb => ?_
      rw [Bool.and_eq_true,decide_eq_true_iff] at ha hb
      exact ⟨(Bool.and_eq_true_iff.mp ha.2).1,ha.1.trans hb.1.symm⟩
    have husable := hperm.perm.filter Descriptor.usable
    have haddress' : Addressed ds' := fun d hd => haddress d (hperm.perm.subset hd)
    rcases inquired_first hfull h haddress reply80 with ⟨d,unit,g,hfirst,-,hdev⟩ | ⟨unit,g,hnone,-,hdev⟩
    · rcases inquired_first hfull h' haddress' reply80' with ⟨d',unit',g',hfirst',-,hdev'⟩ | ⟨unit',g',hnone',-,hdev'⟩
      · obtain rfl := hfirst.unique hfirst' hsame
        rw [hdev,hdev']
        exact ⟨rfl,rfl,rfl⟩
      · rw [hnone',List.nil_perm] at husable
        exact absurd hfirst.mem (husable ▸ List.not_mem_nil)
    · rcases inquired_first hfull h' haddress' reply80' with ⟨d',unit',g',hfirst',-,hdev'⟩ | ⟨unit',g',hnone',-,hdev'⟩
      · rw [hnone,List.perm_nil] at husable
        exact absurd hfirst'.mem (husable ▸ List.not_mem_nil)
      · rw [hdev,hdev']
        exact ⟨rfl,rfl,rfl⟩

section Instances

def groupOfPort : Descriptor := ⟨1,0x15,0,[0,0,0,1],by decide⟩

def registered : Descriptor := ⟨1,3,0,[0x50,1,2,3,4,5,6,7],by decide⟩

def unnamed : Descriptor := ⟨1,3,0,[],by decide⟩

def vendorText : Descriptor := ⟨0x62,1,0,str "T10",by decide⟩

theorem stable_identifier_two : (inquired fullNames none (pageOf [vendorText,registered])).2.dev.serial =
    (inquired fullNames none (pageOf [registered,vendorText])).2.dev.serial := by
  have hpage : WellFormed (pageOf [registered,vendorText]) [registered,vendorText] :=
    wellFormed_pageOf (by decide) (by decide)
  have haddress : Addressed [registered,vendorText] := by
    unfold Addressed
    decide
  have hperm : Rearranges Descriptor.SameLine [registered,vendorText] [vendorText,registered] :=
    ⟨[(vendorText,1),(registered,0)],List.Perm.swap _ _ _,rfl,by decide⟩
  exact ((stable_identifier fullNames (by decide) (by decide) _ _ hpage haddress none).2 _ _ none
    (wellFormed_pageOf (by decide) (by decide)) hperm).1

theorem serial_of_taken {page : Memory} (hcode : page 1 = 0x83) (hformat : page 6 = 0) {c : SearchValues × ℕ}
    (htaken : (taken fullNames page 0).1 = some c) (htype : (descriptorAt page c.2).idType = c.1.idType)
    (hfits : (descriptorAt page c.2).textFits = true) :
    (inquired fullNames none page).2.dev.serial.text 0 = (descriptorAt page c.2).serial fullNames := by
  obtain ⟨-,unit,g,hdev⟩ := inquired_taken (full_one (by decide) (by decide)) hcode hformat none htaken htype
  rw [hdev]
  exact (device_text hfits).1

/-- A target port group matches the first line of the search list, but the identifier is another one. Without a kind of
address, the next descriptor tells which line matches. -/
theorem stable_identifier_group :
    (¬∀ page ds, WellFormed page ds → ∀ d,
      First Descriptor.index (ds.filter fun d => idSearchList.any d.matchesLine && d.textFits) d →
      (inquired fullNames none page).2.dev.serial.text 0 = d.serial fullNames) ∧
    ¬∀ page page' ds ds', WellFormed page ds → WellFormed page' ds' →
      Rearranges Descriptor.SameLine ds ds' →
      (inquired fullNames none page').2.dev.serial = (inquired fullNames none page).2.dev.serial := by
  constructor
  · intro h
    have hwalk : walk (pageOf [groupOfPort,registered]) 4 = [4,12] := by
      rw [walk,if_pos (by decide),walk,if_pos (by decide),walk,if_neg (by decide)]
      rfl
    have htaken : (taken fullNames (pageOf [groupOfPort,registered]) 0).1 =
        some (⟨scsiIdNaa,scsiIdNaaIeeeReg,scsiIdBinary⟩,12) := by
      rw [taken,candidates,hwalk]
      decide
    have hserial := serial_of_taken (by decide) (by decide) htaken (by decide) (by decide)
    rw [h _ [groupOfPort,registered] (wellFormed_pageOf (by decide) (by decide)) groupOfPort
      ⟨[],[registered],rfl,by decide,by decide⟩] at hserial
    exact absurd hserial (by decide)
  · intro h
    have hfront : walk (pageOf [unnamed,vendorText,registered]) 4 = [4,8,15] := by
      rw [walk,if_pos (by decide),walk,if_pos (by decide),walk,if_pos (by decide),walk,if_neg (by decide)]
      rfl
    have hback : walk (pageOf [vendorText,registered,unnamed]) 4 = [4,11,23] := by
      rw [walk,if_pos (by decide),walk,if_pos (by decide),walk,if_pos (by decide),walk,if_neg (by decide)]
      rfl
    have htaken : (taken fullNames (pageOf [unnamed,vendorText,registered]) 0).1 =
        some (⟨scsiIdNaa,scsiIdNaaIeeeRegExtended,scsiIdBinary⟩,4) := by
      rw [taken,candidates,hfront]
      decide
    have htaken' : (taken fullNames (pageOf [vendorText,registered,unnamed]) 0).1 =
        some (⟨scsiIdNaa,scsiIdNaaIeeeReg,scsiIdBinary⟩,11) := by
      rw [taken,candidates,hback]
      decide
    have hperm : Rearranges Descriptor.SameLine [unnamed,vendorText,registered]
        [vendorText,registered,unnamed] :=
      ⟨[(vendorText,1),(registered,2),(unnamed,0)],List.perm_append_singleton (unnamed,0) [(vendorText,1),(registered,2)],
        rfl,by decide⟩
    have hserial := serial_of_taken (by decide) (by decide) htaken (by decide) (by decide)
    have hserial' := serial_of_taken (by decide) (by decide) htaken' (by decide) (by decide)
    rw [h _ _ _ _ (wellFormed_pageOf (by decide) (by decide)) (wellFormed_pageOf (by decide) (by decide)) hperm,
      hserial] at hserial'
    exact absurd hserial' (by decide)

end Instances

end Scsi
end Udev
