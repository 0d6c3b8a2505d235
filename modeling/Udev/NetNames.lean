import Udev.Decimal
import Udev.StringChain

/-! The names of network interfaces from their place on the USB and the PCI bus. The arrays
of 16 bytes lie in `struct netnames`, which is zeroed; places are counted from one of them. -/
namespace Udev
namespace NetNames

open CString Text StringChain Decimal

/-- The fields from a place of the struct on, where an array is still zeroed. -/
def zeroed (rest : ℤ → UInt8) : ℤ → UInt8 := fun i => if 0 ≤ i ∧ i < 16 then 0 else rest i

def HasName (mem : ℤ → UInt8) (b : ℤ) (name : CString) : Prop :=
  name.length < 16 ∧ HoldsAt mem b name ∧ mem (b+name.length) = 0

section Usb

/-- The pieces of `names_usb` behind the parsing; each copy is given the whole size. -/
def composeUsb (ports config interf : CString) (mem : ℤ → UInt8) : Dest :=
  let ports := ports.map fun c => if c = chr '.' then chr 'u' else c
  let d := strpcpyl ⟨mem,0,16,[]⟩ (str "u") [ports]
  let d := if config ≠ str "1" then strpcpyl { d with size := 16 } (str "c") [config] else d
  if interf ≠ str "0" then strpcpyl { d with size := 16 } (str "i") [interf] else d

/-- `names_usb` on `usb_ports`, with the name of the parent that is the interface. -/
def namesUsb (usbdev : Option CString) (mem : ℤ → UInt8) : Dest × ℤ :=
  match usbdev with
  | none => (⟨mem,0,16,[]⟩,-2)
  | some sysname =>
    match strchr (strscpy 256 sysname) (chr '-') with
    | none => (⟨mem,0,16,[]⟩,-22)
    | some s =>
      let ports := s.drop 1
      match strchr ports (chr ':') with
      | none => (⟨mem,0,16,[]⟩,-22)
      | some s =>
        let config := s.drop 1
        match strchr config (chr '.') with
        | none => (⟨mem,0,16,[]⟩,-22)
        | some s =>
          let interf := s.drop 1
          let d := composeUsb (ports.takeWhile (· ≠ chr ':')) (config.takeWhile (· ≠ chr '.')) interf mem
          (d,if d.size = 0 then -36 else 0)

def usbStart (bus ports config : CString) : CString :=
  bus ++ chr '-'::(ports ++ chr ':'::(config ++ [chr '.']))

/-- `BUS-PORTS:CONFIG.INTERFACE`. -/
def usbSysname (bus ports config interf : CString) : CString := usbStart bus ports config ++ interf

def configPart (config : CString) : CString := if config = str "1" then [] else str "c" ++ config

def interfacePart (interf : CString) : CString := if interf = str "0" then [] else str "i" ++ interf

def portsPart (ports : CString) : CString := str "u" ++ ports.map fun c => if c = chr '.' then chr 'u' else c

def usbName (ports config interf : CString) : CString := portsPart ports ++ configPart config ++ interfacePart interf

/-- The writes stay in `usb_ports`, and it has the complete name if it is not too long. -/
def UsbNamed (ports config interf : CString) (r : Dest × ℤ) : Prop :=
  (∀ i ∈ r.1.writes, 0 ≤ i ∧ i < 16) ∧ (r.2 = -36 ∨ HasName r.1.mem 0 (usbName ports config interf))

/-- The name of the parent is not cut off and the complete name fits, or only the ports are copied. -/
def UsbFits (bus ports config interf : CString) : Prop :=
  (usbSysname bus ports config interf).length ≤ 255 ∧ (usbName ports config interf).length ≤ 15 ∨
  config = str "1" ∧ interf.take (255-(usbStart bus ports config).length) = str "0" ∧
    ((usbSysname bus ports config interf).length ≤ 255 ∨ 15 ≤ ports.length)

/-- The state of `usb_ports` behind some pieces, whatever the size. -/
structure Named (t : CString) (d : Dest) : Prop where
  pos : d.pos = t.length
  holds : HoldsAt d.mem 0 t
  nul : d.mem d.pos = 0
  inside : ∀ i ∈ d.writes, 0 ≤ i ∧ i < 16

variable {mem : ℤ → UInt8} {bus ports config interf t src : CString} {srcs : List CString} {d : Dest}

theorem strpcpyl_fresh (d : Dest) (src : CString) (srcs : List CString) :
    strpcpyl { d with size := 16 } src srcs =
      { strpcpyl ⟨d.mem,d.pos,16,[]⟩ src srcs with
        writes := d.writes ++ (strpcpyl ⟨d.mem,d.pos,16,[]⟩ src srcs).writes } := by
  have h := strpcpyl_writes d.writes ⟨d.mem,d.pos,16,[]⟩ src srcs
  rwa [List.append_nil] at h

theorem Named.append (hd : Named t d) (hfit : (t ++ (src::srcs).flatten).length ≤ 15) :
    Named (t ++ (src::srcs).flatten) (strpcpyl { d with size := 16 } src srcs) ∧
      (strpcpyl { d with size := 16 } src srcs).size ≠ 0 := by
  obtain ⟨hkeeps,hnul⟩ := (keeps_start (b := d.pos) d.mem 16).strpcpyl (by decide) src srcs
  have hframe : Frame d.mem (strpcpyl ⟨d.mem,d.pos,16,[]⟩ src srcs) :=
    Frame.strpcpyl (fun _ _ => rfl) src srcs
  have hpos := hkeeps.pos
  have hroom := hkeeps.room
  have hholds := hkeeps.holds
  have hold := hd.pos
  rw [List.nil_append] at hpos hroom hholds
  rw [List.length_append] at hfit
  rw [List.take_of_length_le (by omega)] at hpos hholds
  rw [strpcpyl_fresh]
  constructor
  · constructor
    · show (strpcpyl ⟨d.mem,d.pos,16,[]⟩ src srcs).pos = _
      rw [List.length_append]
      omega
    · apply HoldsAt.append
      · refine hd.holds.congr fun i _ hi => hframe i fun hmem => ?_
        have hlow := (hkeeps.inside i hmem).1
        omega
      · rw [Int.zero_add,← hd.pos]
        exact hholds
    · exact hnul
    · intro i hi
      rcases List.mem_append.mp hi with hi | hi
      · exact hd.inside i hi
      · rcases (strpcpyl_range ⟨d.mem,d.pos,16,[]⟩ src srcs).2 i hi with hi | ⟨hlow,hhigh⟩
        · exact absurd hi List.not_mem_nil
        · have hlow : d.pos ≤ i := hlow
          omega
  · show (strpcpyl ⟨d.mem,d.pos,16,[]⟩ src srcs).size ≠ 0
    omega

theorem append_outside (hpos : 0 < d.pos) (hlong : 15 < d.pos+(src::srcs).flatten.length) :
    ¬∀ i ∈ (strpcpyl { d with size := 16 } src srcs).writes, 0 ≤ i ∧ i < 16 := by
  intro hall
  obtain ⟨hkeeps,-⟩ := (keeps_start (b := d.pos) d.mem 16).strpcpyl (by decide) src srcs
  have hend := hkeeps.pos
  rw [List.nil_append,List.length_take] at hend
  have hlast := hall _ (strpcpyl_pos_mem { d with size := 16 } src srcs)
  have hsame : (strpcpyl { d with size := 16 } src srcs).pos = (strpcpyl ⟨d.mem,d.pos,16,[]⟩ src srcs).pos := by
    rw [strpcpyl_fresh]
  omega

theorem writes_append (i : ℤ) (h : i ∈ d.writes) (src : CString) (srcs : List CString) :
    i ∈ (strpcpyl { d with size := 16 } src srcs).writes := by
  rw [strpcpyl_fresh]
  exact List.mem_append_left _ h

theorem ports_keeps (ports : CString) (mem : ℤ → UInt8) :
    let d := strpcpyl ⟨mem,0,16,[]⟩ (str "u") [ports.map fun c => if c = chr '.' then chr 'u' else c]
    Keeps 0 16 (portsPart ports) d ∧ d.mem d.pos = 0 := by
  have h := (keeps_start (b := 0) mem 16).strpcpyl (by decide) (str "u")
    [ports.map fun c => if c = chr '.' then chr 'u' else c]
  rwa [List.nil_append,List.flatten_cons,List.flatten_cons,List.flatten_nil,List.append_nil] at h

theorem portsPart_length (ports : CString) : (portsPart ports).length = ports.length+1 := by
  rw [portsPart,List.length_append,List.length_map,Nat.add_comm]
  rfl

theorem part_spec (hd : Named t d) (hpos : 0 < t.length) (src piece : CString) :
    ((t ++ (src ++ piece)).length ≤ 15 → Named (t ++ (src ++ piece)) (strpcpyl { d with size := 16 } src [piece]) ∧
      (strpcpyl { d with size := 16 } src [piece]).size ≠ 0) ∧
    (¬(t ++ (src ++ piece)).length ≤ 15 →
      ¬∀ i ∈ (strpcpyl { d with size := 16 } src [piece]).writes, 0 ≤ i ∧ i < 16) := by
  have hflat : [src,piece].flatten = src ++ piece := by simp
  have hold := hd.pos
  constructor
  · intro hfit
    rw [← hflat] at hfit ⊢
    exact hd.append hfit
  · intro hlong
    rw [List.length_append] at hlong
    apply append_outside
    · omega
    · rw [hflat]
      omega

theorem ports_named (mem : ℤ → UInt8) (hfit : (portsPart ports).length ≤ 15) :
    Named (portsPart ports)
      (strpcpyl ⟨mem,0,16,[]⟩ (str "u") [ports.map fun c => if c = chr '.' then chr 'u' else c]) := by
  obtain ⟨hkeeps,hnul⟩ := ports_keeps ports mem
  have hpos := hkeeps.pos
  have hholds := hkeeps.holds
  rw [List.take_of_length_le (by omega)] at hpos hholds
  constructor
  · rw [hpos,Int.zero_add]
  · exact hholds
  · exact hnul
  · intro i hi
    have hin := hkeeps.inside i hi
    omega

theorem ports_full (mem : ℤ → UInt8) (hlong : ¬(portsPart ports).length ≤ 15) :
    (strpcpyl ⟨mem,0,16,[]⟩ (str "u") [ports.map fun c => if c = chr '.' then chr 'u' else c]).pos = 15 := by
  have hpos := (ports_keeps ports mem).1.pos
  rw [List.length_take] at hpos
  omega

theorem flatten_pair (src piece : CString) : [src,piece].flatten = src ++ piece := by simp

theorem composeUsb_ports (ports : CString) (mem : ℤ → UInt8) :
    composeUsb ports (str "1") (str "0") mem =
      strpcpyl ⟨mem,0,16,[]⟩ (str "u") [ports.map fun c => if c = chr '.' then chr 'u' else c] := by
  simp only [composeUsb]
  rw [if_neg (not_not_intro rfl),if_neg (not_not_intro rfl)]

/-- With an optional part, the name is complete where it fits, and is written outside otherwise. -/
theorem composeUsb_spec (ports : CString) (mem : ℤ → UInt8) (hopt : ¬(config = str "1" ∧ interf = str "0")) :
    ((usbName ports config interf).length ≤ 15 →
      Named (usbName ports config interf) (composeUsb ports config interf mem) ∧
        (composeUsb ports config interf mem).size ≠ 0) ∧
    (¬(usbName ports config interf).length ≤ 15 →
      ¬∀ i ∈ (composeUsb ports config interf mem).writes, 0 ≤ i ∧ i < 16) := by
  have hone : 0 < (portsPart ports).length := by
    rw [portsPart_length]
    exact Nat.succ_pos _
  simp only [composeUsb,usbName,configPart,interfacePart]
  generalize hd : strpcpyl ⟨mem,0,16,[]⟩ (str "u") [ports.map fun c => if c = chr '.' then chr 'u' else c] = d
  by_cases hports : (portsPart ports).length ≤ 15
  · have hnamed : Named (portsPart ports) d := hd ▸ ports_named mem hports
    by_cases hc : config = str "1"
    · have hi : interf ≠ str "0" := fun hi => hopt ⟨hc,hi⟩
      rw [if_pos hc,if_neg hi,if_neg (not_not_intro hc),if_pos hi,List.append_nil]
      exact part_spec hnamed hone (str "i") interf
    · rw [if_neg hc,if_pos hc]
      obtain ⟨hfits,hlong⟩ := part_spec hnamed hone (str "c") config
      by_cases hi : interf = str "0"
      · rw [if_pos hi,if_neg (not_not_intro hi),List.append_nil]
        exact ⟨hfits,hlong⟩
      · rw [if_neg hi,if_pos hi]
        by_cases hconfig : (portsPart ports ++ (str "c" ++ config)).length ≤ 15
        · have hfirst := (hfits hconfig).1
          exact part_spec hfirst (by rw [List.length_append]; omega) (str "i") interf
        · have hout := hlong hconfig
          constructor
          · intro hle
            rw [List.length_append] at hle
            omega
          · intro _ hall
            exact hout fun i h => hall i (writes_append i h _ _)
  · have hpos : d.pos = 15 := hd ▸ ports_full mem hports
    have hout (src piece : CString) (hsrc : 0 < src.length) :
        ¬∀ i ∈ (strpcpyl { d with size := 16 } src [piece]).writes, 0 ≤ i ∧ i < 16 := by
      apply append_outside
      · omega
      · rw [flatten_pair,List.length_append]
        omega
    constructor
    · intro hle
      simp only [List.length_append] at hle
      omega
    · intro _ hall
      by_cases hc : config = str "1"
      · have hi : interf ≠ str "0" := fun hi => hopt ⟨hc,hi⟩
        rw [if_neg (not_not_intro hc),if_pos hi] at hall
        exact hout (str "i") interf Nat.zero_lt_one hall
      · rw [if_pos hc] at hall
        apply hout (str "c") config Nat.zero_lt_one
        intro i h
        apply hall i
        split_ifs
        · exact writes_append i h _ _
        · exact h

theorem namesUsb_parsed (hbus : chr '-' ∉ bus) (hports : chr ':' ∉ ports) (hconfig : chr '.' ∉ config)
    (hlen : (usbStart bus ports config).length ≤ 255) (interf : CString) (mem : ℤ → UInt8) :
    namesUsb (some (usbSysname bus ports config interf)) mem =
      let d := composeUsb ports config (interf.take (255-(usbStart bus ports config).length)) mem
      (d,if d.size = 0 then -36 else 0) := by
  have hname : strscpy 256 (usbSysname bus ports config interf) =
      bus ++ chr '-'::(ports ++ chr ':'::(config ++ chr '.'::interf.take (255-(usbStart bus ports config).length))) := by
    rw [strscpy_eq (by decide),usbSysname,List.take_append,List.take_of_length_le hlen,usbStart]
    simp
  rw [namesUsb,hname]
  simp only [strchr_append hbus,List.drop_one,List.tail_cons,strchr_append hports,strchr_append hconfig,
    takeWhile_ne hports,takeWhile_ne hconfig]

theorem take_before {s : CString} {n : ℕ} (h : n ≤ s.length) (r : CString) : (s ++ r).take n = s.take n :=
  List.take_append_of_le_length h

theorem take_behind {s : CString} {n : ℕ} (h : s.length < n) (c : UInt8) (r : CString) :
    (s ++ c::r).take n = s ++ c::r.take (n-s.length-1) := by
  obtain ⟨k,rfl⟩ := Nat.exists_eq_add_of_lt h
  have hk : s.length+k+1-s.length = k+1 := by omega
  rw [List.take_append,List.take_of_length_le (by omega),hk,List.take_succ_cons]
  rfl

theorem not_mem_take {s : CString} {c : UInt8} (h : c ∉ s) (n : ℕ) : c ∉ s.take n :=
  fun hmem => h (List.mem_of_mem_take hmem)

theorem namesUsb_cut (hbus : chr '-' ∉ bus) (hports : chr ':' ∉ ports) (hconfig : chr '.' ∉ config)
    (hlen : 255 < (usbStart bus ports config).length) (interf : CString) (mem : ℤ → UInt8) :
    namesUsb (some (usbSysname bus ports config interf)) mem = (⟨mem,0,16,[]⟩,-22) := by
  have hname : strscpy 256 (usbSysname bus ports config interf) =
      (bus ++ chr '-'::(ports ++ chr ':'::(config ++ [chr '.']))).take 255 := by
    rw [strscpy_eq (by decide),usbSysname,take_before (by omega)]
    rfl
  simp only [usbStart,List.length_append,List.length_cons,List.length_nil] at hlen
  rw [namesUsb,hname]
  by_cases hb : 255 ≤ bus.length
  · rw [take_before hb]
    simp only [strchr_eq_none (not_mem_take hbus _)]
  · rw [take_behind (by omega)]
    simp only [strchr_append hbus,List.drop_one,List.tail_cons]
    by_cases hp : 255-bus.length-1 ≤ ports.length
    · rw [take_before hp]
      simp only [strchr_eq_none (not_mem_take hports _)]
    · rw [take_behind (by omega)]
      simp only [strchr_append hports,List.tail_cons]
      rw [take_before (by omega)]
      simp only [strchr_eq_none (not_mem_take hconfig _)]

theorem not_nul {a : CString} (hnul : 0 ∉ a) {k : ℕ} (hk : k < a.length) : charAt a k ≠ 0 := by
  intro h
  rw [charAt,List.getD_eq_getElem?_getD,List.getElem?_eq_getElem hk] at h
  have h : a[k] = 0 := h
  exact hnul (h ▸ List.getElem_mem hk)

theorem hasName_unique {a b : CString} {k : ℤ} (hnul : 0 ∉ a) (hnul' : 0 ∉ b) (ha : HasName mem k a)
    (hb : HasName mem k b) : a = b := by
  have hle : ∀ {a b : CString}, 0 ∉ b → HasName mem k a → HasName mem k b → b.length ≤ a.length := by
    intro a b hnul ha hb
    by_contra hlt
    apply not_nul hnul (Nat.lt_of_not_le hlt)
    rw [← hb.2.1 _ (Nat.lt_of_not_le hlt)]
    exact ha.2.2
  apply List.ext_getElem
  · exact Nat.le_antisymm (hle hnul hb ha) (hle hnul' ha hb)
  · intro n hn hn'
    have h : charAt a n = charAt b n := by rw [← ha.2.1 n hn,hb.2.1 n hn']
    simpa [charAt,hn,hn'] using h

theorem interfacePart_injective {a b : CString} (h : interfacePart a = interfacePart b) : a = b := by
  unfold interfacePart at h
  split_ifs at h with ha hb hb
  · rw [ha,hb]
  · cases h
  · cases h
  · exact List.append_cancel_left h

theorem Named.hasName (hd : Named t d) (hlen : t.length ≤ 15) : HasName d.mem 0 t := by
  have hnul := hd.nul
  rw [hd.pos] at hnul
  exact ⟨by omega,hd.holds,by rwa [Int.zero_add]⟩

theorem nul_usbName (hnul : 0 ∉ usbSysname bus ports config interf) : 0 ∉ usbName ports config interf := by
  simp only [usbSysname,usbStart,List.mem_append,List.mem_cons,not_or] at hnul
  obtain ⟨⟨-,-,hports,-,hconfig,-⟩,hinterf⟩ := hnul
  have hu : (0 : UInt8) ∉ str "u" := by decide
  have hc : (0 : UInt8) ∉ str "c" := by decide
  have hi : (0 : UInt8) ∉ str "i" := by decide
  have hmap : (0 : UInt8) ∉ ports.map fun c => if c = chr '.' then chr 'u' else c := by
    intro hmem
    obtain ⟨c,hcmem,hc0⟩ := List.mem_map.mp hmem
    split_ifs at hc0
    · exact absurd hc0 (by decide)
    · exact hports (hc0 ▸ hcmem)
  simp only [usbName,portsPart,configPart,interfacePart,List.mem_append,not_or]
  refine ⟨⟨⟨hu,hmap⟩,?_⟩,?_⟩
  · split_ifs
    · exact List.not_mem_nil
    · simp only [List.mem_append,not_or]
      exact ⟨hc,hconfig⟩
  · split_ifs
    · exact List.not_mem_nil
    · simp only [List.mem_append,not_or]
      exact ⟨hi,hinterf⟩

theorem interface_unique {cut : CString} (hcut : 0 ∉ usbName ports config cut) (hname : 0 ∉ usbName ports config interf)
    (hhas : HasName mem 0 (usbName ports config cut)) (hwant : HasName mem 0 (usbName ports config interf)) :
    cut = interf :=
  interfacePart_injective (List.append_cancel_left (hasName_unique hcut hname hhas hwant))

/-- Where only the ports are copied, the name is the right one or refused. -/
theorem named_ports_iff (hcut : 0 ∉ usbName ports (str "1") (str "0")) (hname : 0 ∉ usbName ports (str "1") interf)
    (mem : ℤ → UInt8) :
    UsbNamed ports (str "1") interf (composeUsb ports (str "1") (str "0") mem,
      if (composeUsb ports (str "1") (str "0") mem).size = 0 then -36 else 0) ↔ str "0" = interf ∨ 15 ≤ ports.length := by
  obtain ⟨hkeeps,-⟩ := ports_keeps ports mem
  have hinside : ∀ i ∈ (strpcpyl ⟨mem,0,16,[]⟩ (str "u")
      [ports.map fun c => if c = chr '.' then chr 'u' else c]).writes, 0 ≤ i ∧ i < 16 := by
    intro i hi
    have hin := hkeeps.inside i hi
    omega
  rw [UsbNamed,composeUsb_ports,and_iff_right hinside,hkeeps.room,portsPart_length]
  by_cases hlong : 15 ≤ ports.length
  · rw [if_pos (by omega)]
    exact iff_of_true (Or.inl rfl) (Or.inr hlong)
  · rw [if_neg (by omega)]
    have hfit : (portsPart ports).length ≤ 15 := by
      rw [portsPart_length]
      omega
    have hhas := (ports_named mem hfit).hasName hfit
    have hshort : usbName ports (str "1") (str "0") = portsPart ports := by
      simp [usbName,configPart,interfacePart]
    rw [← hshort] at hhas
    constructor
    · rintro (hret | hwant)
      · exact absurd hret (show (0 : ℤ) ≠ -36 by decide)
      · exact Or.inl (interface_unique hcut hname hhas hwant)
    · rintro (heq | h)
      · subst heq
        exact Or.inr hhas
      · exact absurd h hlong

theorem named_composed_iff {cut : CString} (hopt : ¬(config = str "1" ∧ cut = str "0"))
    (hcut : 0 ∉ usbName ports config cut) (hname : 0 ∉ usbName ports config interf) (mem : ℤ → UInt8) :
    UsbNamed ports config interf (composeUsb ports config cut mem,
        if (composeUsb ports config cut mem).size = 0 then -36 else 0) ↔
      cut = interf ∧ (usbName ports config interf).length ≤ 15 := by
  obtain ⟨hfits,hout⟩ := composeUsb_spec ports mem hopt
  by_cases hfit : (usbName ports config cut).length ≤ 15
  · obtain ⟨hnamed,hsize⟩ := hfits hfit
    have hhas := hnamed.hasName hfit
    rw [UsbNamed,and_iff_right hnamed.inside,if_neg hsize]
    constructor
    · rintro (hret | hwant)
      · exact absurd hret (show (0 : ℤ) ≠ -36 by decide)
      · obtain rfl := interface_unique hcut hname hhas hwant
        exact ⟨rfl,hfit⟩
    · rintro ⟨rfl,-⟩
      exact Or.inr hhas
  · refine iff_of_false (fun h => hout hfit h.1) ?_
    rintro ⟨rfl,h⟩
    exact hfit h

/-- Of a name of a USB interface, the name of the network interface is complete, or refused as too long,
without a write outside, exactly where it fits and its end is not cut off, or only ports are copied. -/
theorem names_usb_iff (hbus : chr '-' ∉ bus) (hports : chr ':' ∉ ports) (hconfig : chr '.' ∉ config)
    (hnul : 0 ∉ usbSysname bus ports config interf) (rest : ℤ → UInt8) :
    UsbNamed ports config interf (namesUsb (some (usbSysname bus ports config interf)) (zeroed rest)) ↔
      UsbFits bus ports config interf := by
  have hname := nul_usbName hnul
  by_cases hlen : (usbStart bus ports config).length ≤ 255
  · rw [namesUsb_parsed hbus hports hconfig hlen,UsbFits]
    have hwhole : (usbSysname bus ports config interf).length ≤ 255 ↔
        interf.take (255-(usbStart bus ports config).length) = interf := by
      rw [List.take_eq_self_iff,usbSysname,List.length_append]
      omega
    have hcut : 0 ∉ usbName ports config (interf.take (255-(usbStart bus ports config).length)) := by
      refine @nul_usbName bus _ _ _ ?_
      rw [usbSysname,List.mem_append,not_or] at hnul ⊢
      exact ⟨hnul.1,not_mem_take hnul.2 _⟩
    rw [hwhole]
    generalize interf.take (255-(usbStart bus ports config).length) = cut at hcut ⊢
    by_cases hopt : config = str "1" ∧ cut = str "0"
    · obtain ⟨rfl,rfl⟩ := hopt
      refine (named_ports_iff hcut hname (zeroed rest)).trans ⟨fun h => Or.inr ⟨rfl,rfl,h⟩,?_⟩
      rintro (⟨h,-⟩ | ⟨-,-,h⟩)
      · exact Or.inl h
      · exact h
    · refine (named_composed_iff hopt hcut hname (zeroed rest)).trans ⟨Or.inl,?_⟩
      rintro (h | ⟨hc,hi,-⟩)
      · exact h
      · exact absurd ⟨hc,hi⟩ hopt
  · rw [namesUsb_cut hbus hports hconfig (Nat.lt_of_not_le hlen)]
    refine iff_of_false ?_ ?_
    · rintro ⟨-,hret | hwant⟩
      · exact absurd hret (show (-22 : ℤ) ≠ -36 by decide)
      · have hsome : 0 < (usbName ports config interf).length := by
          rw [usbName,List.length_append,List.length_append,portsPart_length]
          omega
        have hfirst := hwant.2.1 0 hsome
        exact absurd hfirst (show (0 : UInt8) ≠ chr 'u' by decide)
    · rintro (⟨h,-⟩ | ⟨-,h,-⟩)
      · rw [usbSysname,List.length_append] at h
        omega
      · rw [show 255-(usbStart bus ports config).length = 0 by omega] at h
        cases h

theorem names_usb_iff_hub :
    UsbNamed (str "1.2") (str "1") (str "0") (namesUsb (some (usbSysname (str "1") (str "1.2") (str "1") (str "0")))
      (zeroed fun _ => 0)) ↔ UsbFits (str "1") (str "1.2") (str "1") (str "0") :=
  names_usb_iff (by decide) (by decide) (by decide) (by decide) fun _ => 0

/-- The second interface of a device behind four hubs is written behind `usb_ports`. -/
theorem names_usb_overflow : ¬UsbNamed (str "10.10.10.10.10") (str "1") (str "1")
    (namesUsb (some (str "1-10.10.10.10.10:1.1")) (zeroed fun _ => 0)) := by
  rintro ⟨hinside,-⟩
  have hout := hinside 16 (by decide +kernel)
  omega

end Usb
end NetNames
end Udev
