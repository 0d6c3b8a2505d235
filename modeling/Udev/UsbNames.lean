import Udev.PathEncode
import Udev.Utf8

/-! The encoded names of a USB device. The encoder stops without a terminator where the next piece
does not fit, and nobody asks for its result, so what is read behind is what the buffer had before. -/
namespace Udev
namespace UsbNames

open CString Memory Text DevPath

section Encoder

/-- The loop of `encode_devnode_name`; the first argument counts the bytes that are passed over. -/
def encodeNameLoop (len : ℕ) : ℕ → CString → Cursor → Bool × Cursor
  | _, [], b => (true,b)
  | n+1, _::s, b => encodeNameLoop len n s b
  | 0, c::s, b =>
    let seqlen := utf8EncodedValidUnichar (c::s)
    if seqlen > 1 then
      if len-b.pos < seqlen then (false,b)
      else encodeNameLoop len (seqlen-1) s (((c::s).take seqlen).foldl Cursor.put b)
    else if c = chr '\\' ∨ ¬whitelistedCharForDevnode c none then
      if len-b.pos < 4 then (false,b) else encodeNameLoop len 0 s ((charEncode c).foldl Cursor.put b)
    else if len-b.pos < 1 then (false,b)
    else encodeNameLoop len 0 s (b.put c)

/-- `encode_devnode_name`, and whether all of the string was copied. -/
def encodeDevnodeName (mem : Memory) (s : CString) (len : ℕ) : Bool × Cursor :=
  let r := encodeNameLoop len 0 s (Cursor.start mem)
  if r.1 = false then r
  else if len-r.2.pos < 1 then (false,r.2)
  else (true,r.2.put 0)

def pieces : ℕ → CString → List CString
  | _, [] => []
  | n+1, _::s => pieces n s
  | 0, c::s =>
    if utf8EncodedValidUnichar (c::s) > 1 then
      (c::s).take (utf8EncodedValidUnichar (c::s))::pieces (utf8EncodedValidUnichar (c::s)-1) s
    else if c = chr '\\' ∨ ¬whitelistedCharForDevnode c none then charEncode c::pieces 0 s
    else [c]::pieces 0 s

def nameEncoding (s : CString) : CString := (pieces 0 s).flatten

def fitting : ℕ → List CString → CString
  | _, [] => []
  | room, p::ps => if room < p.length then [] else p ++ fitting (room-p.length) ps

end Encoder

/-- `util_replace_whitespace` behind the leading white space. -/
def whitespaceLoop : CString → CString
  | [] => []
  | c::s =>
    if isspace c then
      match s.dropWhile isspace with
      | [] => [chr '_']
      | d::_ => chr '_'::d::whitespaceLoop ((s.dropWhile isspace).drop 1)
    else c::whitespaceLoop s
termination_by s => s.length
decreasing_by
  · rw [List.length_drop,List.length_cons]
    have h := (List.dropWhile_suffix (l := s) isspace).length_le
    omega
  · exact Nat.lt_succ_self _

def utilReplaceWhitespace (s : CString) (len : ℕ) : CString :=
  whitespaceLoop ((removeTrailing isspace (s.take len)).dropWhile isspace)

structure ScsiDevice where
  sysname : CString
  vendor : Option CString
  model : Option CString

structure UsbDevice where
  idVendor : Option CString
  idProduct : Option CString
  manufacturer : Option CString
  product : Option CString

structure UsbInterface where
  bInterfaceClass : Option CString
  bInterfaceSubClass : Option CString

structure Device where
  devtype : Option CString
  self : UsbDevice
  interface : Option UsbInterface
  usb : Option UsbDevice
  scsi : Option ScsiDevice

/-- The strings of `builtin_usb_id` for the names, and their encoded forms. -/
structure Names where
  vendorStr : CString
  vendorEnc : Memory
  modelStr : CString
  modelEnc : Memory

def cleanName (value : CString) : CString := utilReplaceChars (utilReplaceWhitespace value 63) none

def Names.setVendor (n : Names) (value : CString) : Names :=
  { n with vendorEnc := (encodeDevnodeName n.vendorEnc value 256).2.mem, vendorStr := cleanName value }

def Names.setModel (n : Names) (value : CString) : Names :=
  { n with modelEnc := (encodeDevnodeName n.modelEnc value 256).2.mem, modelStr := cleanName value }

/-- `set_usb_mass_storage_ifsubtype` -/
def massStorageSubtype (ifSubclass : CString) : ℤ := toInt32 (strtoulLiteral 0 ifSubclass).1

/-- `"%d:%d:%d:%d"` on the name of the SCSI device. -/
def scanScsi (sysname : CString) : Option (ℤ × ℤ × ℤ × ℤ) := do
  let (host,s) ← scanSigned sysname
  let (bus,s) ← scanSigned (← scanChar (chr ':') s)
  let (target,s) ← scanSigned (← scanChar (chr ':') s)
  let (lun,_) ← scanSigned (← scanChar (chr ':') s)
  return (host,bus,target,lun)

/-- The names of a SCSI device; where an attribute is missing, the rest is left out. -/
def scsiNames (scsi : Option ScsiDevice) (n : Names) : Names :=
  match scsi with
  | none => n
  | some d =>
    if scanScsi d.sysname = none then n
    else
      match d.vendor with
      | none => n
      | some vendor =>
        let n := n.setVendor vendor
        match d.model with
        | none => n
        | some model => n.setModel model

/-- `builtin_usb_id` from the label `fallback` on. -/
def usbFallback (usb : UsbDevice) (n : Names) : Option Names :=
  let vendor := if n.vendorStr = [] then (usb.manufacturer.or usb.idVendor).map n.setVendor else some n
  vendor.bind fun n => if n.modelStr = [] then (usb.product.or usb.idProduct).map n.setModel else some n

/-- `builtin_usb_id`, as far as the names go, with what was in their buffers. -/
def builtinUsbId (vendorEnc modelEnc : Memory) (d : Device) : Option Names :=
  let n : Names := ⟨[],vendorEnc,[],modelEnc⟩
  if d.devtype = some (str "usb_device") then usbFallback d.self n
  else
    d.interface.bind fun interface =>
      interface.bInterfaceClass.bind fun ifClass =>
        let protocol :=
          if toInt32 (strtoulLiteral 16 ifClass).1 = 8 then (interface.bInterfaceSubClass.map massStorageSubtype).getD 0
          else 0
        d.usb.bind fun usb => usbFallback usb (if protocol = 6 ∨ protocol = 2 then scsiNames d.scsi n else n)

def isScsi (d : Device) : Bool :=
  d.devtype ≠ some (str "usb_device") &&
    (d.interface.bind (·.bInterfaceClass)).any (fun ifClass => toInt32 (strtoulLiteral 16 ifClass).1 = 8) &&
    (d.interface.bind (·.bInterfaceSubClass)).any fun ifSubclass =>
      massStorageSubtype ifSubclass = 6 ∨ massStorageSubtype ifSubclass = 2

def scsiVendor (d : Device) : Option CString :=
  if isScsi d then d.scsi.bind fun scsi => if scanScsi scsi.sysname = none then none else scsi.vendor else none

def scsiModel (d : Device) : Option CString :=
  if (scsiVendor d).isSome then d.scsi.bind (·.model) else none

def usbDevice (d : Device) : Option UsbDevice := if d.devtype = some (str "usb_device") then some d.self else d.usb

/-- The attribute that a name is taken from: that of the SCSI device, if something is left of it. -/
def source (scsi usb : Option CString) : Option CString := if (scsi.map cleanName).getD [] = [] then usb else scsi

/-- What is in the buffer before the name is encoded: what was there, or the SCSI name of which nothing was left. -/
def before (mem : Memory) (scsi : Option CString) : Memory :=
  match scsi with
  | none => mem
  | some value => if cleanName value = [] then (encodeDevnodeName mem value 256).2.mem else mem

def vendorSource (d : Device) : Option CString :=
  source (scsiVendor d) ((usbDevice d).bind fun usb => usb.manufacturer.or usb.idVendor)

def modelSource (d : Device) : Option CString :=
  source (scsiModel d) ((usbDevice d).bind fun usb => usb.product.or usb.idProduct)

/-- In the buffer is a terminated string, and it is the encoding of a value or a prefix of it. -/
def HoldsEncoding (value : CString) (enc : Memory) : Prop :=
  ∃ t, t <+: nameEncoding value ∧ t.length < 256 ∧ enc.Holds t ∧ enc t.length = 0

/-- A name and its encoded form are those of one attribute. -/
def EncodedRight (src : Option CString) (name : CString) (enc : Memory) : Prop :=
  ∃ value, src = some value ∧ name = cleanName value ∧ HoldsEncoding value enc

/-- The encoding fits with its terminator, or what was in the buffer behind the pieces that fit ends a prefix
of the encoding. -/
def EncodingEnds (mem : Memory) (value : CString) : Prop :=
  (nameEncoding value).length < 256 ∨
    ∃ i < 256, (fitting 256 (pieces 0 value)).length ≤ i ∧ mem i = 0 ∧
      ∀ k, (fitting 256 (pieces 0 value)).length ≤ k → k < i → mem k = charAt (nameEncoding value) k

variable {mem : Memory} {b : Cursor} {out s : CString} {len : ℕ}

section Fitting

theorem prefix_fitting (room : ℕ) (ps : List CString) : fitting room ps <+: ps.flatten := by
  induction ps generalizing room with
  | nil => exact List.prefix_refl _
  | cons p ps ih =>
    rw [fitting,List.flatten_cons]
    split_ifs
    · exact List.nil_prefix
    · exact (List.prefix_append_right_inj p).mpr (ih _)

theorem fitting_length (room : ℕ) (ps : List CString) : (fitting room ps).length ≤ room := by
  induction ps generalizing room with
  | nil => exact Nat.zero_le _
  | cons p ps ih =>
    rw [fitting]
    split_ifs with h
    · exact Nat.zero_le _
    · have hrest := ih (room-p.length)
      rw [List.length_append]
      omega

theorem fitting_all {room : ℕ} {ps : List CString} (h : ps.flatten.length ≤ room) : fitting room ps = ps.flatten := by
  induction ps generalizing room with
  | nil => rfl
  | cons p ps ih =>
    rw [List.flatten_cons,List.length_append] at h
    rw [fitting,if_neg (by omega),ih (by omega),List.flatten_cons]

end Fitting

section Loop

def Encodes (mem : Memory) (len : ℕ) (out : CString) (ps : List CString) (r : Bool × Cursor) : Prop :=
  r.2.Filled mem (out ++ fitting (len-out.length) ps) ∧ (r.1 = true ↔ out.length+ps.flatten.length ≤ len)

theorem encodes_piece {p : CString} {ps : List CString} {r : Bool × Cursor} (hout : out.length ≤ len)
    (hb : b.Filled mem out)
    (h : p.length ≤ len-out.length → Encodes mem len (out ++ p) ps r) :
    Encodes mem len out (p::ps) (if len-b.pos < p.length then (false,b) else r) := by
  rw [hb.pos]
  by_cases hfull : len-out.length < p.length
  · rw [if_pos hfull,Encodes,fitting,if_pos hfull,List.append_nil]
    refine ⟨hb,iff_of_false Bool.false_ne_true ?_⟩
    rw [List.flatten_cons,List.length_append]
    omega
  · obtain ⟨hholds,hall⟩ := h (Nat.le_of_not_lt hfull)
    have hroom : len-(out.length+p.length) = len-out.length-p.length := by omega
    rw [List.length_append,hroom] at hholds
    rw [if_neg hfull,Encodes,fitting,if_neg hfull,← List.append_assoc]
    refine ⟨hholds,hall.trans ?_⟩
    rw [List.flatten_cons,List.length_append,List.length_append]
    omega

theorem encodeNameLoop_encodes (n : ℕ) (s : CString) (hb : b.Filled mem out) (hout : out.length ≤ len) :
    Encodes mem len out (pieces n s) (encodeNameLoop len n s b) := by
  induction s generalizing n b out with
  | nil =>
    have hnil : pieces n [] = [] := by
      cases n <;> rfl
    have hloop : encodeNameLoop len n [] b = (true,b) := by
      cases n <;> rfl
    rw [hnil,hloop,Encodes,fitting,List.append_nil]
    exact ⟨hb,iff_of_true rfl hout⟩
  | cons c s ih =>
    cases n with
    | succ n => exact ih n hb hout
    | zero =>
      have hpiece : ∀ (p : CString) (n : ℕ), p.length ≤ len-out.length →
          Encodes mem len (out ++ p) (pieces n s) (encodeNameLoop len n s (p.foldl Cursor.put b)) := by
        intro p n hp
        refine ih n (hb.puts p) ?_
        rw [List.length_append]
        omega
      rw [pieces,encodeNameLoop]
      by_cases hseq : utf8EncodedValidUnichar (c::s) > 1
      · have hlen : ((c::s).take (utf8EncodedValidUnichar (c::s))).length = utf8EncodedValidUnichar (c::s) := by
          rw [List.length_take,Nat.min_eq_left (validUnichar_le hseq)]
        have hstep := encodes_piece hout hb
          (hpiece ((c::s).take (utf8EncodedValidUnichar (c::s))) (utf8EncodedValidUnichar (c::s)-1))
        rw [hlen] at hstep
        rw [if_pos hseq,if_pos hseq]
        exact hstep
      · rw [if_neg hseq,if_neg hseq]
        by_cases hesc : c = chr '\\' ∨ ¬whitelistedCharForDevnode c none
        · rw [if_pos hesc,if_pos hesc]
          exact encodes_piece hout hb (hpiece (charEncode c) 0)
        · rw [if_neg hesc,if_neg hesc]
          exact encodes_piece hout hb (hpiece [c] 0)

end Loop

section Encoding

theorem nul_charEncode : ∀ c, 0 ∉ charEncode c := forall_byte (by decide +kernel)

theorem nul_pieces (n : ℕ) (s : CString) : 0 ∉ (pieces n s).flatten := by
  induction s generalizing n with
  | nil =>
    cases n <;> exact List.not_mem_nil
  | cons c s ih =>
    cases n with
    | succ n => exact ih n
    | zero =>
      rw [pieces]
      split_ifs with hseq hesc
      · rw [List.flatten_cons,List.mem_append,not_or]
        refine ⟨?_,ih _⟩
        intro h
        exact absurd ((validSequence_take hseq).high 0 h) (by decide)
      · rw [List.flatten_cons,List.mem_append,not_or]
        exact ⟨nul_charEncode c,ih 0⟩
      · rw [List.flatten_cons,List.mem_append,not_or]
        refine ⟨?_,ih 0⟩
        intro h
        rw [← List.mem_singleton.mp h] at hesc
        exact hesc (Or.inr (by decide))

theorem encodeDevnodeName_filled (mem : Memory) (value : CString) (len : ℕ) :
    if (nameEncoding value).length < len then
      (encodeDevnodeName mem value len).1 = true ∧ (encodeDevnodeName mem value len).2.Filled mem (nameEncoding value ++ [0])
    else (encodeDevnodeName mem value len).1 = false ∧
      (encodeDevnodeName mem value len).2.Filled mem (fitting len (pieces 0 value)) := by
  have hloop : Encodes mem len [] (pieces 0 value) (encodeNameLoop len 0 value (Cursor.start mem)) :=
    encodeNameLoop_encodes 0 value (Cursor.filled_start mem) (Nat.zero_le _)
  obtain ⟨hfilled,hall⟩ := hloop
  rw [List.nil_append,List.length_nil,Nat.sub_zero] at hfilled
  rw [List.length_nil,Nat.zero_add] at hall
  have hflat : (pieces 0 value).flatten = nameEncoding value := rfl
  rw [hflat] at hall
  rw [encodeDevnodeName]
  by_cases hfit : (nameEncoding value).length < len
  · have hfitting : fitting len (pieces 0 value) = nameEncoding value := fitting_all (Nat.le_of_lt hfit)
    rw [hfitting] at hfilled
    have hok : ¬(encodeNameLoop len 0 value (Cursor.start mem)).1 = false := by
      rw [hall.mpr (Nat.le_of_lt hfit)]
      exact Bool.noConfusion
    have hroom : ¬len-(encodeNameLoop len 0 value (Cursor.start mem)).2.pos < 1 := by
      rw [hfilled.pos]
      omega
    simp only [if_pos hfit,if_neg hok,if_neg hroom]
    exact ⟨trivial,hfilled.put 0⟩
  · simp only [if_neg hfit]
    split_ifs with hok hroom
    · exact ⟨hok,hfilled⟩
    · exact ⟨rfl,hfilled⟩
    · refine absurd ?_ hroom
      rw [Bool.not_eq_false] at hok
      have hfitting : fitting len (pieces 0 value) = nameEncoding value := fitting_all (hall.mp hok)
      rw [hfilled.pos,hfitting]
      omega

theorem encodeDevnodeName_spec (mem : Memory) (value : CString) :
    let enc := (encodeDevnodeName mem value 256).2.mem
    if (nameEncoding value).length < 256 then enc.Holds (nameEncoding value) ∧ enc (nameEncoding value).length = 0
    else enc.Holds (fitting 256 (pieces 0 value)) ∧ ∀ i, (fitting 256 (pieces 0 value)).length ≤ i → enc i = mem i := by
  have hfilled := encodeDevnodeName_filled mem value 256
  by_cases hfit : (nameEncoding value).length < 256
  · simp only [if_pos hfit] at hfilled ⊢
    exact ⟨hfilled.2.holds.left,hfilled.2.holds.last⟩
  · simp only [if_neg hfit] at hfilled ⊢
    exact ⟨hfilled.2.holds,hfilled.2.rest⟩

/-- The buffer has the encoding or a prefix of it exactly where there is room for it, or what was behind ends one. -/
theorem holdsEncoding_iff (mem : Memory) (value : CString) :
    HoldsEncoding value (encodeDevnodeName mem value 256).2.mem ↔ EncodingEnds mem value := by
  have hspec := encodeDevnodeName_spec mem value
  simp only at hspec
  by_cases hfit : (nameEncoding value).length < 256
  · rw [if_pos hfit] at hspec
    exact iff_of_true ⟨_,List.prefix_refl _,hfit,hspec.1,hspec.2⟩ (Or.inl hfit)
  rw [if_neg hfit] at hspec
  obtain ⟨hholds,hrest⟩ := hspec
  have hlen := fitting_length 256 (pieces 0 value)
  obtain ⟨behind,hbehind⟩ := prefix_fitting 256 (pieces 0 value)
  have hnul := nul_pieces 0 value
  rw [HoldsEncoding,EncodingEnds,or_iff_right hfit]
  constructor
  · rintro ⟨t,⟨later,hlater⟩,ht,htext,hend⟩
    have hkept : (fitting 256 (pieces 0 value)).length ≤ t.length := by
      by_contra hshort
      have hshort := Nat.lt_of_not_le hshort
      rw [hholds _ hshort] at hend
      refine hnul (hbehind ▸ List.mem_append_left _ ?_)
      rw [← hend,charAt,List.getD_eq_getElem _ _ hshort]
      exact List.getElem_mem hshort
    refine ⟨t.length,ht,hkept,(hrest _ hkept).symm.trans hend,?_⟩
    intro k hlow hhigh
    rw [← hrest k hlow,htext k hhigh,← hlater,charAt_append_left hhigh]
  · rintro ⟨i,hi,hkept,hend,hsame⟩
    have htake : ((nameEncoding value).take i).length = i := by
      rw [List.length_take]
      omega
    have hchar : ∀ k < i, charAt ((nameEncoding value).take i) k = charAt (nameEncoding value) k := by
      intro k hk
      rw [charAt,charAt,List.getD_eq_getElem?_getD,List.getD_eq_getElem?_getD,List.getElem?_take_of_lt hk]
    refine ⟨(nameEncoding value).take i,List.take_prefix _ _,by omega,?_,?_⟩
    · intro k hk
      rw [htake] at hk
      rw [hchar k hk]
      by_cases hlow : k < (fitting 256 (pieces 0 value)).length
      · rw [hholds k hlow,nameEncoding,← hbehind,charAt_append_left hlow]
      · rw [hrest k (Nat.le_of_not_lt hlow)]
        exact hsame k (Nat.le_of_not_lt hlow) hk
    · rw [htake,hrest i hkept]
      exact hend

end Encoding

section Run

variable {d : Device} {n : Names} {usb : UsbDevice}

def afterScsi (mem : Memory) (scsi : Option CString) : Memory :=
  (scsi.map fun value => (encodeDevnodeName mem value 256).2.mem).getD mem

def scsiStage (vendorEnc modelEnc : Memory) (d : Device) : Names :=
  ⟨((scsiVendor d).map cleanName).getD [],afterScsi vendorEnc (scsiVendor d),
    ((scsiModel d).map cleanName).getD [],afterScsi modelEnc (scsiModel d)⟩

theorem scsiNames_stage (vendorEnc modelEnc : Memory) (hscsi : isScsi d = true) :
    scsiNames d.scsi ⟨[],vendorEnc,[],modelEnc⟩ = scsiStage vendorEnc modelEnc d := by
  rw [scsiStage,scsiModel,scsiVendor,if_pos hscsi]
  cases d.scsi with
  | none => rfl
  | some scsi =>
    rw [scsiNames,Option.bind_some,Option.bind_some]
    by_cases hname : scanScsi scsi.sysname = none
    · rw [if_pos hname,if_pos hname]
      rfl
    · rw [if_neg hname,if_neg hname]
      cases scsi.vendor with
      | none => rfl
      | some vendor =>
        cases scsi.model with
        | none => rfl
        | some model => rfl

theorem stage_not_scsi (vendorEnc modelEnc : Memory) (hscsi : isScsi d = false) :
    scsiStage vendorEnc modelEnc d = ⟨[],vendorEnc,[],modelEnc⟩ := by
  have hnot : ¬isScsi d = true := by
    rw [hscsi]
    exact Bool.noConfusion
  have hvendor : scsiVendor d = none := if_neg hnot
  have hmodel : scsiModel d = none := by
    rw [scsiModel,hvendor]
    rfl
  rw [scsiStage,hvendor,hmodel]
  rfl

theorem isScsi_iff {interface : UsbInterface} {ifClass : CString} (hself : d.devtype ≠ some (str "usb_device"))
    (hinterface : d.interface = some interface) (hclass : interface.bInterfaceClass = some ifClass) :
    isScsi d = true ↔
      (if toInt32 (strtoulLiteral 16 ifClass).1 = 8 then (interface.bInterfaceSubClass.map massStorageSubtype).getD 0
        else 0) = 6 ∨
      (if toInt32 (strtoulLiteral 16 ifClass).1 = 8 then (interface.bInterfaceSubClass.map massStorageSubtype).getD 0
        else 0) = 2 := by
  have hdevtype : decide (d.devtype ≠ some (str "usb_device")) = true := decide_eq_true hself
  rw [isScsi,hinterface,Option.bind_some,Option.bind_some,hclass,hdevtype,Bool.true_and,Bool.and_eq_true,
    Option.any_some,decide_eq_true_iff]
  generalize toInt32 (strtoulLiteral 16 ifClass).1 = ifClassNum
  by_cases hstorage : ifClassNum = 8
  · rw [if_pos hstorage,and_iff_right hstorage]
    cases interface.bInterfaceSubClass with
    | none => exact iff_of_false Bool.false_ne_true (by decide)
    | some ifSubclass =>
      rw [Option.any_some,decide_eq_true_iff,Option.map_some,Option.getD_some]
  · rw [if_neg hstorage]
    exact iff_of_false (fun h => hstorage h.1) (by decide)

theorem builtinUsbId_stage {vendorEnc modelEnc : Memory} (h : builtinUsbId vendorEnc modelEnc d = some n) :
    ∃ usb, usbDevice d = some usb ∧ usbFallback usb (scsiStage vendorEnc modelEnc d) = some n := by
  rw [builtinUsbId] at h
  by_cases hself : d.devtype = some (str "usb_device")
  · have hscsi : isScsi d = false := by
      rw [isScsi,hself]
      rfl
    rw [if_pos hself] at h
    refine ⟨d.self,if_pos hself,?_⟩
    rw [stage_not_scsi _ _ hscsi]
    exact h
  · rw [if_neg hself] at h
    obtain ⟨interface,hinterface,h⟩ := Option.bind_eq_some_iff.mp h
    obtain ⟨ifClass,hclass,h⟩ := Option.bind_eq_some_iff.mp h
    obtain ⟨usb,husb,h⟩ := Option.bind_eq_some_iff.mp h
    refine ⟨usb,(if_neg hself).trans husb,?_⟩
    have hscsi := isScsi_iff hself hinterface hclass
    by_cases hask : isScsi d = true
    · rw [if_pos (hscsi.mp hask),scsiNames_stage _ _ hask] at h
      exact h
    · rw [if_neg (mt hscsi.mpr hask)] at h
      rw [stage_not_scsi _ _ (Bool.eq_false_iff.mpr hask)]
      exact h

def Named (first : CString) (firstEnc : Memory) (other : Option CString) (name : CString) (enc : Memory) : Prop :=
  (first = [] ∧ ∃ value, other = some value ∧ name = cleanName value ∧ enc = (encodeDevnodeName firstEnc value 256).2.mem) ∨
    (first ≠ [] ∧ name = first ∧ enc = firstEnc)

theorem usbFallback_named {st : Names} (h : usbFallback usb st = some n) :
    Named st.vendorStr st.vendorEnc (usb.manufacturer.or usb.idVendor) n.vendorStr n.vendorEnc ∧
    Named st.modelStr st.modelEnc (usb.product.or usb.idProduct) n.modelStr n.modelEnc := by
  obtain ⟨middle,hvendor,hmodel⟩ := Option.bind_eq_some_iff.mp h
  have hfirst : Named st.vendorStr st.vendorEnc (usb.manufacturer.or usb.idVendor) middle.vendorStr middle.vendorEnc ∧
      middle.modelStr = st.modelStr ∧ middle.modelEnc = st.modelEnc := by
    split_ifs at hvendor with hnone
    · obtain ⟨value,hvalue,rfl⟩ := Option.map_eq_some_iff.mp hvendor
      exact ⟨Or.inl ⟨hnone,value,hvalue,rfl,rfl⟩,rfl,rfl⟩
    · obtain rfl := Option.some.inj hvendor
      exact ⟨Or.inr ⟨hnone,rfl,rfl⟩,rfl,rfl⟩
  obtain ⟨hnamed,hstr,henc⟩ := hfirst
  split_ifs at hmodel with hnone
  · obtain ⟨value,hvalue,rfl⟩ := Option.map_eq_some_iff.mp hmodel
    refine ⟨hnamed,Or.inl ⟨hstr ▸ hnone,value,hvalue,rfl,?_⟩⟩
    rw [← henc]
    rfl
  · obtain rfl := Option.some.inj hmodel
    exact ⟨hnamed,Or.inr ⟨hstr ▸ hnone,hstr,henc⟩⟩

/-- A name behind the fallback is that of its source, and was encoded over what was before. -/
theorem Named.source {scsi other : Option CString} {name : CString} {enc : Memory}
    (h : Named ((scsi.map cleanName).getD []) (afterScsi mem scsi) other name enc) :
    ∃ value, source scsi other = some value ∧ name = cleanName value ∧
      enc = (encodeDevnodeName (before mem scsi) value 256).2.mem := by
  rcases h with ⟨hnone,value,hother,hname,henc⟩ | ⟨hsome,hname,henc⟩
  · refine ⟨value,?_,hname,?_⟩
    · rw [UsbNames.source,if_pos hnone]
      exact hother
    · rw [henc]
      cases scsi with
      | none => rfl
      | some first =>
        have hempty : cleanName first = [] := hnone
        rw [before,if_pos hempty]
        rfl
  · cases scsi with
    | none => exact absurd rfl hsome
    | some value =>
      have hne : cleanName value ≠ [] := hsome
      refine ⟨value,if_neg hne,hname,?_⟩
      rw [before,if_neg hne]
      exact henc

theorem Named.right_iff {scsi other : Option CString} {name : CString} {enc : Memory}
    (h : Named ((scsi.map cleanName).getD []) (afterScsi mem scsi) other name enc) :
    EncodedRight (UsbNames.source scsi other) name enc ↔
      ∀ value ∈ UsbNames.source scsi other, EncodingEnds (before mem scsi) value := by
  obtain ⟨value,hsource,hname,henc⟩ := h.source
  rw [hsource]
  constructor
  · rintro ⟨value',heq,-,hholds⟩ value'' hmem
    obtain rfl := Option.some.inj heq
    obtain rfl := Option.some.inj hmem
    rw [henc] at hholds
    exact (holdsEncoding_iff _ _).mp hholds
  · intro hends
    refine ⟨value,rfl,hname,?_⟩
    rw [henc]
    exact (holdsEncoding_iff _ _).mpr (hends value rfl)

/-- The encoded names are terminated prefixes of the encoding of their attributes exactly where each encoding fits, or
what was in its buffer behind the pieces that fit ends a prefix of it. -/
theorem usb_names_enc_iff {vendorEnc modelEnc : Memory} (h : builtinUsbId vendorEnc modelEnc d = some n) :
    EncodedRight (vendorSource d) n.vendorStr n.vendorEnc ∧ EncodedRight (modelSource d) n.modelStr n.modelEnc ↔
      (∀ value ∈ vendorSource d, EncodingEnds (before vendorEnc (scsiVendor d)) value) ∧
      ∀ value ∈ modelSource d, EncodingEnds (before modelEnc (scsiModel d)) value := by
  obtain ⟨usb,husb,hfallback⟩ := builtinUsbId_stage h
  obtain ⟨hvendor,hmodel⟩ := usbFallback_named hfallback
  rw [vendorSource,modelSource,husb,Option.bind_some,Option.bind_some]
  exact and_congr hvendor.right_iff hmodel.right_iff

def keyboard : Device :=
  { devtype := some (str "usb_device"), interface := none, usb := none, scsi := none
    self := ⟨some (str "045e"),some (str "0752"),some (str "Microsoft"),some (str "Wired Keyboard")⟩ }

def keyboardNames : Names :=
  ((⟨[],fun _ => 0,[],fun _ => 0⟩ : Names).setVendor (str "Microsoft")).setModel (str "Wired Keyboard")

theorem usb_names_enc_iff_keyboard :
    EncodedRight (vendorSource keyboard) keyboardNames.vendorStr keyboardNames.vendorEnc ∧
    EncodedRight (modelSource keyboard) keyboardNames.modelStr keyboardNames.modelEnc ↔
      (∀ value ∈ vendorSource keyboard, EncodingEnds (before (fun _ => 0) (scsiVendor keyboard)) value) ∧
      ∀ value ∈ modelSource keyboard, EncodingEnds (before (fun _ => 0) (scsiModel keyboard)) value :=
  @usb_names_enc_iff keyboard keyboardNames (fun _ => 0) (fun _ => 0) rfl

def withProduct (value : CString) : Device := { keyboard with self := { keyboard.self with product := some value } }

/-- Behind a product that does not fit, the encoded name goes on with what was in the buffer. -/
theorem product_leftover {value : CString} (hlong : ¬(nameEncoding value).length < 256) :
    ∃ vendorEnc modelEnc n, builtinUsbId vendorEnc modelEnc (withProduct value) = some n ∧
      ¬(EncodedRight (vendorSource (withProduct value)) n.vendorStr n.vendorEnc ∧
        EncodedRight (modelSource (withProduct value)) n.modelStr n.modelEnc) := by
  have hsource : modelSource (withProduct value) = some value := rfl
  refine ⟨fun _ => chr 'x',fun _ => chr 'x',_,rfl,?_⟩
  rintro ⟨-,value',hvalue,-,hholds⟩
  obtain rfl := Option.some.inj (hsource.symm.trans hvalue)
  rcases (holdsEncoding_iff _ _).mp hholds with hfit | ⟨i,-,-,hzero,-⟩
  · exact hlong hfit
  · have hx : chr 'x' = 0 := hzero
    exact absurd hx (by decide)

/-- Of 86 characters with three bytes, the last does not fit. -/
theorem usb_names_enc_leftover : ∃ vendorEnc modelEnc n,
    builtinUsbId vendorEnc modelEnc (withProduct (List.replicate 86 [0xe4,0xb8,0xad]).flatten) = some n ∧
      ¬(EncodedRight (vendorSource (withProduct (List.replicate 86 [0xe4,0xb8,0xad]).flatten)) n.vendorStr n.vendorEnc ∧
        EncodedRight (modelSource (withProduct (List.replicate 86 [0xe4,0xb8,0xad]).flatten)) n.modelStr n.modelEnc) :=
  product_leftover (by decide +kernel)

end Run

end UsbNames
end Udev
