import Udev.Memory
import Udev.SearchLoop

/-! The serial numbers of SCSI devices, from what a device replies to `INQUIRY`. A field of the device
knows the places that were written. A string function that finds no `NUL` stops at the end of the field. -/
namespace Udev
namespace Scsi

open CString Memory SearchLoop

def vendorLength : ℕ := 8
def modelLength : ℕ := 16
def maxSerialLen : ℕ := 256
def scsiInqBuffLen : ℕ := 254

def scsiIdVendorSpecific : UInt8 := 0
def scsiIdT10Vendor : UInt8 := 1
def scsiIdEui64 : UInt8 := 2
def scsiIdNaa : UInt8 := 3
def scsiIdTgtgroup : UInt8 := 5

def scsiIdNaaDontCare : UInt8 := 0xff
def scsiIdNaaIeeeReg : UInt8 := 5
def scsiIdNaaIeeeRegExtended : UInt8 := 6

def scsiIdBinary : UInt8 := 1
def scsiIdAscii : UInt8 := 2

structure SearchValues where
  idType : UInt8
  naaType : UInt8
  codeSet : UInt8
  deriving DecidableEq

def idSearchList : List SearchValues :=
  [⟨scsiIdTgtgroup,scsiIdNaaDontCare,scsiIdBinary⟩,
    ⟨scsiIdNaa,scsiIdNaaIeeeRegExtended,scsiIdBinary⟩,
    ⟨scsiIdNaa,scsiIdNaaIeeeRegExtended,scsiIdAscii⟩,
    ⟨scsiIdNaa,scsiIdNaaIeeeReg,scsiIdBinary⟩,
    ⟨scsiIdNaa,scsiIdNaaIeeeReg,scsiIdAscii⟩,
    ⟨scsiIdNaa,scsiIdNaaDontCare,scsiIdBinary⟩,
    ⟨scsiIdNaa,scsiIdNaaDontCare,scsiIdAscii⟩,
    ⟨scsiIdEui64,scsiIdNaaDontCare,scsiIdBinary⟩,
    ⟨scsiIdEui64,scsiIdNaaDontCare,scsiIdAscii⟩,
    ⟨scsiIdT10Vendor,scsiIdNaaDontCare,scsiIdBinary⟩,
    ⟨scsiIdT10Vendor,scsiIdNaaDontCare,scsiIdAscii⟩,
    ⟨scsiIdVendorSpecific,scsiIdNaaDontCare,scsiIdBinary⟩,
    ⟨scsiIdVendorSpecific,scsiIdNaaDontCare,scsiIdAscii⟩]

/-- `hex_str[n]`; behind the digits is the terminator. -/
def hexStr (n : UInt8) : UInt8 := charAt (str "0123456789abcdef") n.toNat

def hexPair (c : UInt8) : CString := [hexStr ((c &&& 0xf0) >>> 4),hexStr (c &&& 0x0f)]

section Fields

/-- An array of a device, and the places that were written. -/
structure Field where
  mem : Memory := fun _ => 0
  writes : List ℕ := []

def Field.write (f : Field) (pos : ℕ) (s : CString) : Field :=
  ⟨f.mem.write pos s,f.writes ++ List.range' pos s.length⟩

def Field.text (f : Field) (pos : ℕ) : CString := f.mem.textFrom pos (maxSerialLen-pos)

def Field.strlen (f : Field) (pos : ℕ) : ℕ := (f.text pos).length

def Field.strcpy (f : Field) (pos : ℕ) (s : CString) : Field := f.write pos (s ++ [0])

def Field.strncpy (f : Field) (pos : ℕ) (s : CString) (n : ℕ) : Field :=
  f.write pos (s.take n ++ List.replicate (n-s.length) 0)

def Field.strncat (f : Field) (pos : ℕ) (s : CString) (n : ℕ) : Field :=
  f.write (pos+f.strlen pos) (s.take n ++ [0])

/-- The fields of a device that are filled from its replies; all are zero at the begin. -/
structure ScsiIdDevice where
  serial : Field := {}
  serialShort : Field := {}
  unitSerialNumber : Field := {}
  wwn : Field := {}
  wwnVendorExtension : Field := {}
  tgptGroup : CString := []

/-- The strings in `vendor` and `model`. -/
structure Names where
  vendor : CString
  model : CString
  vendor_len : vendor.length ≤ vendorLength
  model_len : model.length ≤ modelLength
  vendor_nul : 0 ∉ vendor
  model_nul : 0 ∉ model

variable (names : Names)

/-- `prepend_vendor_model`; it fails when the names do not have the full length. -/
def prependVendorModel (serial : Field) (pos : ℕ) : Bool × Field :=
  let serial := serial.strncpy pos names.vendor vendorLength
  let serial := serial.strncat pos names.model modelLength
  (serial.strlen pos = vendorLength+modelLength,serial)

end Fields

section Descriptors

/-- The offsets of the page that are read, and the descriptors whose content was taken. -/
structure Scan where
  dev : ScsiIdDevice
  reads : List ℕ := []
  used : List ℕ := []

def Scan.read (st : Scan) (l : List ℕ) : Scan := { st with reads := st.reads ++ l }

def Scan.use (st : Scan) (j : ℕ) : Scan := { st with used := st.used ++ [j] }

/-- Checks one after the other up to the first that fails, each with the offsets that it reads. -/
def runChecks : List (List ℕ × Bool) → List ℕ × Bool
  | [] => ([],true)
  | (reads,ok)::l => if ok then (reads ++ (runChecks l).1,(runChecks l).2) else (reads,false)

variable (page : Memory) (j : ℕ)

/-- The length that an identifier needs, with its type, its terminator and, for a vendor specific one, the names. -/
def needed (id : SearchValues) : ℕ :=
  let len := (page (j+3)).toNat
  let len := if page j &&& 0x0f ≠ scsiIdAscii then len*2 else len
  let len := len+2
  if id.idType = scsiIdVendorSpecific then len+(vendorLength+modelLength) else len

/-- The association is with the device, or with the target port for its group. -/
def associated (id : SearchValues) : Bool :=
  if page (j+1) &&& 0x30 = 0x10 then id.idType = scsiIdTgtgroup else page (j+1) &&& 0x30 = 0

def checks (id : SearchValues) : List (List ℕ × Bool) :=
  [([j+1],associated page j id),
    ([j+1],page (j+1) &&& 0x0f = id.idType),
    (if id.naaType = scsiIdNaaDontCare then [] else [j+4],
      id.naaType = scsiIdNaaDontCare ∨ id.naaType = (page (j+4) &&& 0xf0) >>> 4),
    ([j],page j &&& 0x0f = id.codeSet),
    ([j+3,j],needed page j id ≤ maxSerialLen)]

def identifier : CString := (List.range (page (j+3)).toNat).map fun i => page (j+4+i)

def converted : CString :=
  if page j &&& 0x0f = scsiIdAscii then identifier page j else (identifier page j).flatMap hexPair

variable (names : Names)

/-- The identifier is put behind what is in the serial number, and into the other fields. -/
def fillDevice (bytes : CString) (idType : UInt8) (serial : Field) (dev : ScsiIdDevice) : ScsiIdDevice :=
  let s := serial.strlen 0
  let serial := serial.write s bytes
  let dev := { dev with serial := serial, serialShort := dev.serialShort.strcpy 0 (serial.text s) }
  if idType = scsiIdNaa then
    { dev with
      wwn := dev.wwn.strncpy 0 (serial.text s) 16
      wwnVendorExtension := dev.wwnVendorExtension.strncpy 0 (serial.text (s+16)) 16 }
  else dev

/-- The end of `check_fill_0x83_id`, with the type and the names in the serial number. -/
def fillIdentifier (id : SearchValues) (serial : Field) (st : Scan) : Scan :=
  { (st.read (List.range' (j+4) (page (j+3)).toNat)).use j with
    dev := fillDevice (converted page j) id.idType serial st.dev }

/-- `check_fill_0x83_id`, which returns 0 when the serial number was filled. -/
def checkFill0x83Id (id : SearchValues) (st : Scan) : Bool × Scan :=
  let st := st.read (runChecks (checks page j id)).1
  if (runChecks (checks page j id)).2 = false then (false,st)
  else if id.idType = scsiIdTgtgroup then
    let group := (page (j+6)).toNat*256+(page (j+7)).toNat
    (false,{ (st.read [j+6,j+7]).use j with dev := { st.dev with tgptGroup := (Nat.toDigits 16 group).map chr } })
  else
    let serial := st.dev.serial.write 0 [hexStr id.idType]
    if id.idType = scsiIdVendorSpecific then
      let prepended := prependVendorModel names serial 1
      if prepended.1 = false then (false,{ st with dev := { st.dev with serial := prepended.2 } })
      else (true,fillIdentifier page j id prepended.2 st)
    else (true,fillIdentifier page j id serial st)

end Descriptors

section Inquiries

/-- The positions of the descriptors: each says in its fourth byte how long it is. -/
def walk (page : Memory) (j : ℕ) : List ℕ :=
  if j ≤ (page 3).toNat+3 then j::walk page (j+((page (j+3)).toNat+4)) else []
termination_by (page 3).toNat+4-j

/-- The bytes for which `check_fill_0x83_prespc3` has room. -/
def prespc3Bytes (page : Memory) (j : ℕ) : CString :=
  ((List.range (page 3).toNat).takeWhile fun i => j+2*i < maxSerialLen-3).map fun i => page (4+i)

def checkFill0x83Prespc3 (page : Memory) (st : Scan) : Scan :=
  let serial := st.dev.serial.write 0 [hexStr scsiIdTgtgroup]
  let j := serial.strlen 0
  let bytes := prespc3Bytes page j
  let serial := (serial.write j (bytes.flatMap hexPair)).write (maxSerialLen-1) [0]
  { st.read (3::List.range' 4 bytes.length) with
    dev := { st.dev with
      serial := serial
      serialShort := st.dev.serialShort.strncpy 0 (serial.text 0) (maxSerialLen-1) } }

def page80Serial (reply : Option Memory) : Option CString :=
  reply.bind fun buf =>
    if buf 1 ≠ 0x80 then none
    else if maxSerialLen < 1+vendorLength+modelLength+(buf 3).toNat then none
    else some ((List.range (buf 3).toNat).map fun i => buf (4+i))

variable (names : Names)

def doScsiPage80Inquiry (reply : Option Memory) (serial : Option Field) (serialShort : Field) :
    Bool × Option Field × Field :=
  match page80Serial reply with
  | none => (false,serial,serialShort)
  | some number =>
    match serial with
    | none => (true,none,serialShort.write 0 (number ++ [0]))
    | some serial =>
      let prepended := prependVendorModel names (serial.write 0 [chr 'S']) 1
      if prepended.1 = false then (false,some prepended.2,serialShort)
      else (true,some (prepended.2.write (1+(vendorLength+modelLength)) number),serialShort.write 0 (number ++ [0]))

def tryDescriptor (page : Memory) (id : SearchValues) (j : ℕ) (st : Scan) : Bool × Scan :=
  let r := checkFill0x83Id page j names id st
  if r.1 then r else (false,r.2.read [j+3])

/-- `do_scsi_page83_inquiry`, with the replies to its two inquiries. -/
def doScsiPage83Inquiry (reply80 reply83 : Option Memory) (dev : ScsiIdDevice) : Bool × Scan :=
  let dev := { dev with unitSerialNumber := (doScsiPage80Inquiry names reply80 none dev.unitSerialNumber).2.2 }
  match reply83 with
  | none => (false,{ dev })
  | some page =>
    if page 1 ≠ 0x83 then (false,{ dev, reads := [1] })
    else if page 6 ≠ 0 then (true,checkFill0x83Prespc3 page { dev, reads := [1,6] })
    else searchLoop (fun id => searchLoop (tryDescriptor names page id) (walk page 4)) idSearchList { dev, reads := [1,6,3] }

inductive Prespc3
  | filled | failed | notConformant
  deriving DecidableEq

def doScsiPage83Prespc3Inquiry (reply : Option Memory) (serial : Field) : Prespc3 × Field :=
  match reply with
  | none => (.failed,serial)
  | some page =>
    if page 1 ≠ 0x83 then (.failed,serial)
    else if page 6 = 0 then (.notConformant,serial)
    else
      let serial := serial.write 0 [hexStr scsiIdTgtgroup]
      let bytes := (List.range (page 3).toNat).map fun i => page (4+i)
      (.filled,serial.write (serial.strlen 0) (bytes.flatMap hexPair))

/-- `do_scsi_page0_inquiry`, which does not trust a page with the vendor's name in it. -/
def doScsiPage0Inquiry (reply : Option Memory) : Option Memory :=
  reply.bind fun buffer =>
    if buffer 1 ≠ 0 then none
    else if scsiInqBuffLen < (buffer 3).toNat then none
    else if modelLength < (buffer 3).toNat ∧ buffer.textFrom vendorLength vendorLength = names.vendor then none
    else some buffer

inductive PageCode
  | unspecified | page80 | page83 | page83Prespc3
  deriving DecidableEq

structure Session where
  dev : ScsiIdDevice := {}
  asked : ℕ := 0

variable (replies : ℕ → Option Memory)

def inquirePage83 (s : Session) : Bool × Session :=
  let r := doScsiPage83Inquiry names (replies s.asked) (replies (s.asked+1)) s.dev
  (r.1,⟨r.2.dev,s.asked+2⟩)

def inquirePage80 (s : Session) : Bool × Session :=
  let r := doScsiPage80Inquiry names (replies s.asked) (some s.dev.serial) s.dev.serialShort
  (r.1,⟨{ s.dev with serial := r.2.1.getD s.dev.serial, serialShort := r.2.2 },s.asked+1⟩)

/-- `scsi_get_serial` behind the open of the device. The `n`-th inquiry gets the `n`-th reply. -/
def scsiGetSerial (pageCode : PageCode) : Bool × Session :=
  match pageCode with
  | .page80 => inquirePage80 names replies {}
  | .page83 => inquirePage83 names replies {}
  | .page83Prespc3 =>
    let r := doScsiPage83Prespc3Inquiry (replies 0) {}
    match r.1 with
    | .filled => (true,⟨{ serial := r.2 },1⟩)
    | .failed => (false,⟨{ serial := r.2 },1⟩)
    | .notConformant => inquirePage83 names replies ⟨{ serial := r.2 },1⟩
  | .unspecified =>
    match doScsiPage0Inquiry names (replies 0) with
    | none => (false,⟨{},1⟩)
    | some page0 =>
      let entries := List.range' 4 (page0 3).toNat
      let r := searchLoop (fun ind s => if page0 ind = 0x83 then inquirePage83 names replies s else (false,s)) entries ⟨{},1⟩
      if r.1 then r
      else searchLoop (fun ind s => if page0 ind = 0x80 then inquirePage80 names replies s else (false,s)) entries r.2

end Inquiries

end Scsi
end Udev
