import Udev.NetNames

/-! The names of network interfaces from their place on the PCI bus. Both are composed with
`strpcpyf` in an array of `struct netnames`; a cut is answered by emptying `pci_path`. Places are
counted from `pci_slot` on, behind which `pci_path` and `pci_onboard` lie. -/
namespace Udev
namespace NetNames

open CString Text StringChain Decimal

structure PciNumbers where
  domain : UInt32
  bus : UInt32
  slot : UInt32
  func : UInt32
  devPort : UInt32
  multifunction : Bool
  deriving DecidableEq, Repr

/-- `"%x:%x:%x.%u"` on the name of the device. -/
def scanAddress (sysname : CString) : Option (UInt32 × UInt32 × UInt32 × UInt32) := do
  let (domain,s) ← scanUnsigned 16 sysname
  let (bus,s) ← scanUnsigned 16 (← scanChar (chr ':') s)
  let (slot,s) ← scanUnsigned 16 (← scanChar (chr ':') s)
  let (func,_) ← scanUnsigned 10 (← scanChar (chr '.') s)
  return (domain,bus,slot,func)

def isPciMultifunction (config : Option (List UInt8)) : Bool :=
  config.any fun c => 64 ≤ c.length && charAt c 14 &&& 0x80 ≠ 0

/-- The loop over the slots: their names and what is read from their addresses. -/
def hotplugSlot (sysname : CString) : List (CString × Option CString) → ℤ
  | [] => 0
  | (name,address)::dents =>
    let r := strtol 10 name
    if charAt name 0 = chr '.' then hotplugSlot sysname dents
    else if charAt r.2 0 ≠ 0 then hotplugSlot sysname dents
    else if toInt32 r.1 < 1 then hotplugSlot sysname dents
    else if address.any fun a => a.isPrefixOf sysname then toInt32 r.1
    else hotplugSlot sysname dents

/-- `"%d"` of an `unsigned`. -/
def printSigned (n : UInt32) : CString := printInt (toInt32 n.toNat)

/-- The pieces of a name in an array; `names->pci_path[0] = '\0'` where they are cut off. -/
def compose (b : ℤ) (n : PciNumbers) (middle : CString) (mem : ℤ → UInt8) : Dest :=
  let d : Dest := ⟨mem,b,16,[]⟩
  let d := if n.domain > 0 then strpcpyf d (str "P" ++ printSigned n.domain) else d
  let d := strpcpyf d middle
  let d := if n.func > 0 ∨ n.multifunction then strpcpyf d (str "f" ++ printSigned n.func) else d
  let d := if n.devPort > 0 then strpcpyf d (str "d" ++ printSigned n.devPort) else d
  if d.size = 0 then { d with mem := Function.update d.mem 16 0, writes := d.writes ++ [16] } else d

def composePciPath (n : PciNumbers) (mem : ℤ → UInt8) : Dest :=
  compose 16 n (str "p" ++ printSigned n.bus ++ str "s" ++ printSigned n.slot) mem

def composePciSlot (n : PciNumbers) (hotplug : ℤ) (mem : ℤ → UInt8) : Dest :=
  compose 0 n (str "s" ++ printInt hotplug) mem

/-- The device and what is read for it; an error comes where the slots cannot be listed. -/
structure PciDevice where
  sysname : CString
  config : Option (List UInt8)
  devPort : Option CString
  slots : Except ℤ (List (CString × Option CString))

def numbers (p : PciDevice) : Option PciNumbers :=
  (scanAddress p.sysname).map fun (domain,bus,slot,func) =>
    ⟨domain,bus,slot,func,p.devPort.elim 0 fun attr => .ofNat ((strtol 10 attr).1 % 2^32).toNat,
      isPciMultifunction p.config⟩

def devPciSlot (p : PciDevice) (mem : ℤ → UInt8) : (ℤ → UInt8) × ℤ :=
  match numbers p with
  | none => (mem,-2)
  | some n =>
    let mem := (composePciPath n mem).mem
    match p.slots with
    | .error err => (mem,err)
    | .ok dents =>
      let hotplug := hotplugSlot p.sysname dents
      if hotplug > 0 then ((composePciSlot n hotplug mem).mem,0) else (mem,0)

/-- The number of the slot; 0 where there is none. -/
def slotNumber (p : PciDevice) : ℤ :=
  match p.slots with
  | .error _ => 0
  | .ok dents => hotplugSlot p.sysname dents

example : numbers ⟨str "0000:02:1f.1",none,some (str "1"),.error (-2)⟩ = some ⟨0,2,31,1,1,false⟩ := by decide +kernel

/-- The fields from `pci_slot` on, where the first two arrays are still zeroed. -/
def zeroedPci (rest : ℤ → UInt8) : ℤ → UInt8 := fun i => if 0 ≤ i ∧ i < 32 then 0 else rest i

abbrev Items := List (UInt8 × UInt32)

def domainItems (n : PciNumbers) : Items := if n.domain > 0 then [(chr 'P',n.domain)] else []

def lastItems (n : PciNumbers) : Items :=
  (if n.func > 0 ∨ n.multifunction then [(chr 'f',n.func)] else []) ++
  (if n.devPort > 0 then [(chr 'd',n.devPort)] else [])

def pathItems (n : PciNumbers) : Items := domainItems n ++ ([(chr 'p',n.bus),(chr 's',n.slot)] ++ lastItems n)

def slotItems (n : PciNumbers) (hotplug : ℤ) : Items :=
  domainItems n ++ ([(chr 's',.ofNat hotplug.toNat)] ++ lastItems n)

def printItems (print : UInt32 → CString) (items : Items) : CString := items.flatMap fun x => x.1::print x.2

def completeName (items : Items) : CString := printItems (fun n => printNat n.toNat) items

/-- The numbers of which `"%d"` is the number. -/
def Printable (items : Items) : Prop := ∀ x ∈ items, x.2.toNat < 2^31

/-- What the names promise: each array has its complete string or is empty, it is empty only where the
string is too long or there is no slot, and each composition leaves the other fields as they are. -/
structure PciNamed (p : PciDevice) (n : PciNumbers) (mem : ℤ → UInt8) : Prop where
  path : HasName (devPciSlot p mem).1 16 (completeName (pathItems n)) ∨ (devPciSlot p mem).1 16 = 0
  pathEmpty : (devPciSlot p mem).1 16 = 0 → 15 < (completeName (pathItems n)).length
  slot : HasName (devPciSlot p mem).1 0 (completeName (slotItems n (slotNumber p))) ∨ (devPciSlot p mem).1 0 = 0
  slotEmpty : (devPciSlot p mem).1 0 = 0 →
    slotNumber p ≤ 0 ∨ 15 < (completeName (slotItems n (slotNumber p))).length
  pathFrame : ∀ i, i < 16 ∨ 32 ≤ i → (composePciPath n mem).mem i = mem i
  slotFrame : ∀ i, i < 0 ∨ 16 ≤ i → (devPciSlot p mem).1 i = (composePciPath n mem).mem i

/-- The path is printed as it is and fits, or it is too long and `pci_onboard` is empty. -/
def PathFits (n : PciNumbers) (rest : ℤ → UInt8) : Prop :=
  Printable (pathItems n) ∧ (completeName (pathItems n)).length ≤ 15 ∨
  15 < (completeName (pathItems n)).length ∧ 15 < (printItems printSigned (pathItems n)).length ∧ rest 32 = 0

/-- The name of a slot is printed as it is and fits. -/
def SlotFits (n : PciNumbers) (hotplug : ℤ) : Prop :=
  0 < hotplug → Printable (slotItems n hotplug) ∧ (completeName (slotItems n hotplug)).length ≤ 15

def pieces (n : PciNumbers) (middle : CString) : List CString :=
  (if n.domain > 0 then [str "P" ++ printSigned n.domain] else []) ++ ([middle] ++
  ((if n.func > 0 ∨ n.multifunction then [str "f" ++ printSigned n.func] else []) ++
  (if n.devPort > 0 then [str "d" ++ printSigned n.devPort] else [])))

variable {n : PciNumbers} {p : PciDevice} {b : ℤ} {middle : CString} {mem rest : ℤ → UInt8} {items : Items} {i : ℤ}

theorem foldl_piece (c : Prop) [Decidable c] (text : CString) (d : Dest) :
    (if c then [text] else []).foldl strpcpyf d = if c then strpcpyf d text else d := by
  split_ifs
  · rw [List.foldl_cons,List.foldl_nil]
  · rw [List.foldl_nil]

theorem compose_eq (b : ℤ) (n : PciNumbers) (middle : CString) (mem : ℤ → UInt8) :
    compose b n middle mem =
      let d := (pieces n middle).foldl strpcpyf ⟨mem,b,16,[]⟩
      if d.size = 0 then { d with mem := Function.update d.mem 16 0, writes := d.writes ++ [16] } else d := by
  have hfold : (pieces n middle).foldl strpcpyf ⟨mem,b,16,[]⟩ =
      let d : Dest := ⟨mem,b,16,[]⟩
      let d := if n.domain > 0 then strpcpyf d (str "P" ++ printSigned n.domain) else d
      let d := strpcpyf d middle
      let d := if n.func > 0 ∨ n.multifunction then strpcpyf d (str "f" ++ printSigned n.func) else d
      if n.devPort > 0 then strpcpyf d (str "d" ++ printSigned n.devPort) else d := by
    rw [pieces,List.foldl_append,List.foldl_append,List.foldl_append,foldl_piece,foldl_piece,foldl_piece,
      List.foldl_cons,List.foldl_nil]
  rw [hfold,compose]

theorem printInt_lt (z : ℤ) : (printInt z).length < 2^29 := by
  have h := (printInt_length z).2
  omega

theorem pieces_short (hmiddle : middle.length < 2^31) : ∀ text ∈ pieces n middle, text.length < 2^31 := by
  have hone (c : UInt8) (x : UInt32) : ([c] ++ printSigned x).length < 2^31 := by
    have h := printInt_lt (toInt32 x.toNat)
    rw [List.length_append,printSigned,List.length_singleton]
    omega
  intro text htext
  simp only [pieces,List.mem_append,List.mem_singleton] at htext
  rcases htext with h | rfl | h | h
  · split_ifs at h
    · rw [List.mem_singleton.mp h]
      exact hone _ _
    · cases h
  · exact hmiddle
  · split_ifs at h
    · rw [List.mem_singleton.mp h]
      exact hone _ _
    · cases h
  · split_ifs at h
    · rw [List.mem_singleton.mp h]
      exact hone _ _
    · cases h

theorem flatten_pieces (n : PciNumbers) (mid : Items) :
    (pieces n (printItems printSigned mid)).flatten =
      printItems printSigned (domainItems n ++ (mid ++ lastItems n)) := by
  have hdomain : (if n.domain > 0 then [str "P" ++ printSigned n.domain] else []).flatten =
      printItems printSigned (domainItems n) := by
    unfold domainItems
    split_ifs <;> simp [printItems,str,chr]
  have hfunc : (if n.func > 0 ∨ n.multifunction then [str "f" ++ printSigned n.func] else []).flatten =
      printItems printSigned (if n.func > 0 ∨ n.multifunction then [(chr 'f',n.func)] else []) := by
    split_ifs <;> simp [printItems,str,chr]
  have hport : (if n.devPort > 0 then [str "d" ++ printSigned n.devPort] else []).flatten =
      printItems printSigned (if n.devPort > 0 then [(chr 'd',n.devPort)] else []) := by
    split_ifs <;> simp [printItems,str,chr]
  have happ (x y : Items) : printItems printSigned (x ++ y) = printItems printSigned x ++ printItems printSigned y :=
    List.flatMap_append
  rw [pieces,List.flatten_append,List.flatten_append,List.flatten_append,List.flatten_singleton,hdomain,hfunc,hport,
    lastItems,happ,happ,happ]

theorem compose_fits (hfit : (pieces n middle).flatten.length ≤ 15) :
    HasName (compose b n middle mem).mem b (pieces n middle).flatten ∧
    ∀ i, i < b ∨ b+16 ≤ i → (compose b n middle mem).mem i = mem i := by
  have hne : pieces n middle ≠ [] := by simp [pieces]
  have hframe : Frame mem ((pieces n middle).foldl strpcpyf ⟨mem,b,16,[]⟩) :=
    Frame.formats (fun _ _ => rfl) (pieces n middle)
  obtain ⟨hkeeps,hnul⟩ := (keeps_start (b := b) mem 16).formats (by decide) (pieces n middle)
    (by rw [List.nil_append]; omega)
  rw [List.nil_append] at hkeeps
  have hpos := hkeeps.pos
  have hroom := hkeeps.room
  have hholds := hkeeps.holds
  rw [List.take_of_length_le (by omega)] at hpos hholds
  rw [compose_eq]
  simp only
  rw [if_neg (by omega)]
  constructor
  · refine ⟨by omega,hholds,?_⟩
    rw [← hpos]
    exact hnul (Or.inr hne)
  · intro i hi
    refine hframe i fun hmem => ?_
    have hin := hkeeps.inside i hmem
    omega

/-- A composition that is cut off: the byte behind the array is written too, and `pci_path` is emptied. -/
theorem compose_cut (hmiddle : middle.length < 2^31) (hlong : 15 < (pieces n middle).flatten.length) :
    (compose b n middle mem).mem 16 = 0 ∧
    (∀ k < 15, b+(k : ℕ) ≠ 16 → (compose b n middle mem).mem (b+k) = charAt (pieces n middle).flatten k) ∧
    (b+15 ≠ 16 → (compose b n middle mem).mem (b+15) = 0) ∧ (compose b n middle mem).mem (b+16) = 0 ∧
    ∀ i, i < b ∨ b+16 < i → i ≠ 16 → (compose b n middle mem).mem i = mem i := by
  have hframe : Frame mem ((pieces n middle).foldl strpcpyf ⟨mem,b,16,[]⟩) :=
    Frame.formats (fun _ _ => rfl) (pieces n middle)
  have hpassed := (keeps_start (b := b) mem 16).formats_cut (by decide) (by decide) (pieces n middle)
    (pieces_short hmiddle) (by rw [List.nil_append]; omega)
  rw [List.nil_append] at hpassed
  rw [compose_eq]
  generalize (pieces n middle).foldl strpcpyf ⟨mem,b,16,[]⟩ = d at hframe hpassed ⊢
  simp only
  rw [if_pos hpassed.room]
  refine ⟨?_,?_,?_,?_,?_⟩
  · exact Function.update_self (16 : ℤ) (0 : UInt8) d.mem
  · intro k hk hne
    show Function.update _ 16 0 _ = _
    rw [Function.update_of_ne hne,hpassed.holds k (by rw [List.length_take]; omega)]
    simp [charAt,hk]
  · intro hne
    show Function.update _ 16 0 _ = _
    rw [Function.update_of_ne hne]
    exact hpassed.nul
  · show Function.update _ 16 0 _ = _
    by_cases h16 : b+16 = 16
    · rw [h16,Function.update_self]
    · rw [Function.update_of_ne h16]
      exact hpassed.behind
  · intro i hi hne
    show Function.update _ 16 0 _ = _
    rw [Function.update_of_ne hne]
    refine hframe i fun hmem => ?_
    have hin := hpassed.inside i hmem
    omega

theorem minus_notMem (n : ℕ) : chr '-' ∉ printNat n := by
  intro hmem
  have h := (decimalDigits_isDigit 20 n _ hmem).1
  revert h
  decide

theorem printSigned_small {x : UInt32} (h : x.toNat < 2^31) : printSigned x = printNat x.toNat := by
  rw [printSigned,toInt32_small h,printInt,if_neg (by omega),Int.natAbs_natCast]

theorem printSigned_big {x : UInt32} (h : 2^31 ≤ x.toNat) : ∃ r, printSigned x = chr '-'::r := by
  have hlt := x.toNat_lt
  have h32 : ((2^32 : ℕ) : ℤ) = 4294967296 := rfl
  have hneg : toInt32 x.toNat < 0 := by
    rw [toInt32,Int.bmod_def,h32]
    split_ifs <;> omega
  rw [printSigned,printInt,if_pos hneg]
  exact ⟨_,rfl⟩

theorem printItems_small (h : Printable items) : printItems printSigned items = completeName items := by
  unfold completeName printItems
  apply List.flatMap_congr
  intro x hx
  rw [printSigned_small (h x hx)]

/-- A number that is not printed as it is puts a sign where the complete string goes on. -/
theorem printItems_big (h : ¬Printable items) :
    ∃ a r, printItems printSigned items = a ++ chr '-'::r ∧ a.length < (completeName items).length := by
  induction items with
  | nil => exact absurd (fun x hx => absurd hx List.not_mem_nil) h
  | cons x items ih =>
    have hcons (print : UInt32 → CString) :
        printItems print (x::items) = x.1::(print x.2 ++ printItems print items) := List.flatMap_cons
    rw [completeName,hcons,hcons]
    by_cases hx : x.2.toNat < 2^31
    · have hrest : ¬Printable items := by
        intro hall
        apply h
        intro y hy
        rcases List.mem_cons.mp hy with rfl | hy
        · exact hx
        · exact hall y hy
      obtain ⟨a,r,heq,hlt⟩ := ih hrest
      refine ⟨x.1::(printNat x.2.toNat ++ a),r,?_,?_⟩
      · rw [heq,printSigned_small hx,List.cons_append,List.append_assoc]
      · rw [completeName] at hlt
        rw [List.length_cons,List.length_cons,List.length_append,List.length_append]
        omega
    · obtain ⟨r,hr⟩ := printSigned_big (Nat.le_of_not_lt hx)
      have hone := (printNat_length x.2.toNat).1
      refine ⟨[x.1],r ++ printItems printSigned items,?_,?_⟩
      · rw [hr,List.cons_append,List.singleton_append]
      · rw [List.length_singleton,List.length_cons,List.length_append]
        omega

/-- The letters of a name are neither a sign nor `NUL`. -/
def Letters (items : Items) : Prop := ∀ x ∈ items, x.1 ≠ chr '-' ∧ x.1 ≠ 0

theorem minus_completeName (h : Letters items) : chr '-' ∉ completeName items := by
  intro hmem
  obtain ⟨x,hx,hmem⟩ := List.mem_flatMap.mp hmem
  rcases List.mem_cons.mp hmem with heq | hmem
  · exact (h x hx).1 heq.symm
  · exact minus_notMem _ hmem

theorem nul_completeName (h : Letters items) : 0 ∉ completeName items := by
  intro hmem
  obtain ⟨x,hx,hmem⟩ := List.mem_flatMap.mp hmem
  rcases List.mem_cons.mp hmem with heq | hmem
  · exact (h x hx).2 heq.symm
  · exact printNat_text (by decide) hmem

theorem nul_printItems (h : Letters items) : 0 ∉ printItems printSigned items := by
  intro hmem
  obtain ⟨x,hx,hmem⟩ := List.mem_flatMap.mp hmem
  rcases List.mem_cons.mp hmem with heq | hmem
  · exact (h x hx).2 heq.symm
  · exact printInt_text (by decide) hmem

theorem letters_append {x y : Items} (hx : Letters x) (hy : Letters y) : Letters (x ++ y) := by
  intro z hz
  rcases List.mem_append.mp hz with hz | hz
  · exact hx z hz
  · exact hy z hz

theorem letters_one {c : UInt8} (hc : c ≠ chr '-' ∧ c ≠ 0) (x : UInt32) : Letters [(c,x)] := by
  intro y hy
  rw [List.mem_singleton.mp hy]
  exact hc

theorem letters_ite {c : Prop} [Decidable c] (h : Letters items) : Letters (if c then items else []) := by
  split_ifs
  · exact h
  · exact fun x hx => absurd hx List.not_mem_nil

theorem letters_domain (n : PciNumbers) : Letters (domainItems n) := letters_ite (letters_one (by decide) _)

theorem letters_last (n : PciNumbers) : Letters (lastItems n) :=
  letters_append (letters_ite (letters_one (by decide) _)) (letters_ite (letters_one (by decide) _))

theorem letters_path (n : PciNumbers) : Letters (pathItems n) := by
  apply letters_append (letters_domain n)
  apply letters_append _ (letters_last n)
  exact letters_append (letters_one (c := chr 'p') (by decide) n.bus) (letters_one (c := chr 's') (by decide) n.slot)

theorem letters_slot (n : PciNumbers) (hotplug : ℤ) : Letters (slotItems n hotplug) := by
  apply letters_append (letters_domain n)
  exact letters_append (letters_one (by decide) _) (letters_last n)

/-- A complete string that is an array's printed one was printed as it is. -/
theorem printable_of_eq (hl : Letters items) (h : completeName items = printItems printSigned items) : Printable items := by
  by_contra hbig
  obtain ⟨a,r,heq,-⟩ := printItems_big hbig
  apply minus_completeName hl
  rw [h,heq]
  exact List.mem_append_right _ List.mem_cons_self

theorem printItems_path (print : UInt32 → CString) (x y : UInt32) :
    printItems print [(chr 'p',x),(chr 's',y)] = str "p" ++ print x ++ str "s" ++ print y := by
  simp [printItems,str,chr]

theorem printItems_slot (print : UInt32 → CString) (x : UInt32) :
    printItems print [(chr 's',x)] = str "s" ++ print x := by
  simp [printItems,str,chr]

theorem path_pieces (n : PciNumbers) :
    (pieces n (str "p" ++ printSigned n.bus ++ str "s" ++ printSigned n.slot)).flatten =
      printItems printSigned (pathItems n) := by
  rw [pathItems,← flatten_pieces,printItems_path]

theorem hotplugSlot_lt (sysname : CString) (dents : List (CString × Option CString)) :
    hotplugSlot sysname dents < 2^31 := by
  induction dents with
  | nil => exact (show (0 : ℤ) < 2^31 by decide)
  | cons dent dents ih =>
    simp only [hotplugSlot]
    split_ifs
    · exact ih
    · exact ih
    · exact ih
    · exact lt_toInt32_range _
    · exact ih

theorem slotNumber_lt (p : PciDevice) : slotNumber p < 2^31 := by
  unfold slotNumber
  split
  · decide
  · exact hotplugSlot_lt _ _

theorem slot_pieces (n : PciNumbers) {hotplug : ℤ} (hpos : 0 < hotplug) (hlt : hotplug < 2^31) :
    (pieces n (str "s" ++ printInt hotplug)).flatten = printItems printSigned (slotItems n hotplug) := by
  have hnat : (UInt32.ofNat hotplug.toNat).toNat = hotplug.toNat := by
    rw [UInt32.toNat_ofNat_of_lt']
    have hsize : UInt32.size = 4294967296 := rfl
    omega
  have hprint : printSigned (.ofNat hotplug.toNat) = printInt hotplug := by
    rw [printSigned,hnat,toInt32_small (by omega),Int.toNat_of_nonneg (Int.le_of_lt hpos)]
  rw [slotItems,← flatten_pieces,printItems_slot,hprint]

theorem devPciSlot_mem (hn : numbers p = some n) (mem : ℤ → UInt8) :
    (devPciSlot p mem).1 =
      if slotNumber p > 0 then (composePciSlot n (slotNumber p) (composePciPath n mem).mem).mem
      else (composePciPath n mem).mem := by
  delta devPciSlot
  rw [hn]
  cases hs : p.slots with
  | error err =>
    have h : slotNumber p = 0 := by rw [slotNumber,hs]
    rw [h,if_neg (Int.lt_irrefl 0)]
  | ok dents =>
    have h : slotNumber p = hotplugSlot p.sysname dents := by rw [slotNumber,hs]
    rw [h]
    simp only
    split_ifs <;> rfl

theorem middle_lt (c c' : CString) (hc : c.length ≤ 1 ∧ c'.length ≤ 1) (y z : ℤ) :
    (c ++ printInt y ++ c' ++ printInt z).length < 2^31 := by
  have hy := printInt_lt y
  have hz := printInt_lt z
  simp only [List.length_append]
  omega

theorem head_ne_nul {a : CString} (hnul : 0 ∉ a) (hlen : 0 < a.length) : charAt a 0 ≠ 0 := not_nul hnul hlen

theorem HasName.head {a : CString} (h : HasName mem b a) (hnul : 0 ∉ a) (hlen : 0 < a.length) : mem b ≠ 0 := by
  have h0 := h.2.1 0 hlen
  rw [Nat.cast_zero,Int.add_zero] at h0
  rw [h0]
  exact head_ne_nul hnul hlen

theorem printItems_pos (print : UInt32 → CString) (x y : Items) (a : UInt8 × UInt32) (z : Items) :
    0 < (printItems print (x ++ (a::y ++ z))).length := by
  simp only [printItems,List.flatMap_append,List.flatMap_cons,List.length_append,List.length_cons]
  omega

theorem composePciPath_spec (n : PciNumbers) (mem : ℤ → UInt8) :
    ((printItems printSigned (pathItems n)).length ≤ 15 →
      HasName (composePciPath n mem).mem 16 (printItems printSigned (pathItems n)) ∧
      ∀ i, i < 16 ∨ 32 ≤ i → (composePciPath n mem).mem i = mem i) ∧
    (15 < (printItems printSigned (pathItems n)).length →
      (composePciPath n mem).mem 16 = 0 ∧ (composePciPath n mem).mem 32 = 0 ∧
      ∀ i, i < 16 ∨ 32 < i → (composePciPath n mem).mem i = mem i) := by
  rw [← path_pieces,composePciPath]
  constructor
  · intro hfit
    obtain ⟨hname,hframe⟩ := @compose_fits n 16 _ mem hfit
    exact ⟨hname,fun i hi => hframe i (by omega)⟩
  · intro hlong
    obtain ⟨hzero,-,-,hbehind,hframe⟩ := @compose_cut n 16 _ mem
      (middle_lt (str "p") (str "s") (by decide) _ _) hlong
    exact ⟨hzero,hbehind,fun i hi => hframe i (by omega) (by omega)⟩

/-- The name of the slot after its composition; where it is cut off, its begin stays in the array. -/
theorem composePciSlot_spec (n : PciNumbers) {hotplug : ℤ} (hpos : 0 < hotplug) (hlt : hotplug < 2^31)
    (mem : ℤ → UInt8) :
    ((printItems printSigned (slotItems n hotplug)).length ≤ 15 →
      HasName (composePciSlot n hotplug mem).mem 0 (printItems printSigned (slotItems n hotplug)) ∧
      ∀ i, i < 0 ∨ 16 ≤ i → (composePciSlot n hotplug mem).mem i = mem i) ∧
    (15 < (printItems printSigned (slotItems n hotplug)).length →
      HasName (composePciSlot n hotplug mem).mem 0 ((printItems printSigned (slotItems n hotplug)).take 15)) := by
  rw [← slot_pieces n hpos hlt,composePciSlot]
  constructor
  · intro hfit
    obtain ⟨hname,hframe⟩ := @compose_fits n 0 _ mem hfit
    exact ⟨hname,fun i hi => hframe i (by omega)⟩
  · intro hlong
    have hmiddle : (str "s" ++ printInt hotplug).length < 2^31 := by
      have h := printInt_lt hotplug
      have hs : (str "s").length = 1 := rfl
      rw [List.length_append,hs]
      omega
    obtain ⟨-,hheld,hnul,-,-⟩ := @compose_cut n 0 _ mem hmiddle hlong
    have hlen : ((pieces n (str "s" ++ printInt hotplug)).flatten.take 15).length = 15 := by
      rw [List.length_take]
      omega
    refine ⟨by omega,fun k hk => ?_,?_⟩
    · rw [hlen] at hk
      rw [hheld k hk (by omega)]
      simp [charAt,hk]
    · rw [hlen]
      exact hnul (by decide)

theorem take_ne_complete (hl : Letters items) (hlong : 15 < (printItems printSigned items).length)
    (h : (printItems printSigned items).take 15 = completeName items) : False := by
  by_cases hprint : Printable items
  · rw [printItems_small hprint] at h hlong
    have hlen := congrArg List.length h
    rw [List.length_take] at hlen
    omega
  · obtain ⟨a,r,heq,hlt⟩ := printItems_big hprint
    have hlen := congrArg List.length h
    rw [List.length_take] at hlen
    apply minus_completeName hl
    rw [← h,heq,List.take_append]
    apply List.mem_append_right
    obtain ⟨k,hk⟩ : ∃ k, 15-a.length = k+1 := ⟨15-a.length-1,by omega⟩
    rw [hk,List.take_succ_cons]
    exact List.mem_cons_self

theorem HasName.congr {name : CString} {mem' : ℤ → UInt8} (h : HasName mem b name)
    (hsame : ∀ i, b ≤ i → i < b+16 → mem' i = mem i) : HasName mem' b name := by
  obtain ⟨hlen,hheld,hend⟩ := h
  refine ⟨hlen,fun k hk => ?_,?_⟩
  · rw [hsame _ (by omega) (by omega),hheld k hk]
  · rw [hsame _ (by omega) (by omega),hend]

theorem path_head (h : HasName mem b (printItems printSigned (pathItems n))) : mem b ≠ 0 :=
  h.head (nul_printItems (letters_path n))
    (printItems_pos printSigned (domainItems n) [(chr 's',n.slot)] (chr 'p',n.bus) (lastItems n))

theorem slot_head {hotplug : ℤ} (h : HasName mem b (printItems printSigned (slotItems n hotplug))) : mem b ≠ 0 :=
  h.head (nul_printItems (letters_slot n hotplug)) (printItems_pos printSigned (domainItems n) [] (chr 's',_) (lastItems n))

section Named

variable (h : PciNamed p n (zeroedPci rest))
include h

theorem pathFits_of_named : PathFits n rest := by
  have hlp := letters_path n
  obtain ⟨hfits,hcut⟩ := composePciPath_spec n (zeroedPci rest)
  have hsame : (devPciSlot p (zeroedPci rest)).1 16 = (composePciPath n (zeroedPci rest)).mem 16 :=
    h.slotFrame 16 (Or.inr (Int.le_refl _))
  by_cases hfit : (printItems printSigned (pathItems n)).length ≤ 15
  · obtain ⟨hname,-⟩ := hfits hfit
    have hleft := h.path.resolve_right (by rw [hsame]; exact path_head hname)
    have hcomplete : HasName (composePciPath n (zeroedPci rest)).mem 16 (completeName (pathItems n)) :=
      hleft.congr fun i hi _ => (h.slotFrame i (Or.inr hi)).symm
    have heq := hasName_unique (nul_completeName hlp) (nul_printItems hlp) hcomplete hname
    exact Or.inl ⟨printable_of_eq hlp heq,by rwa [heq]⟩
  · obtain ⟨hzero,hbehind,-⟩ := hcut (Nat.lt_of_not_le hfit)
    have hframe := h.pathFrame 32 (Or.inr (Int.le_refl _))
    rw [hbehind] at hframe
    exact Or.inr ⟨h.pathEmpty (hsame.trans hzero),Nat.lt_of_not_le hfit,hframe.symm⟩

theorem slotFits_of_named (hn : numbers p = some n) : SlotFits n (slotNumber p) := by
  intro hpos
  have hls := letters_slot n (slotNumber p)
  obtain ⟨hfits,hcut⟩ := composePciSlot_spec n hpos (slotNumber_lt p) (composePciPath n (zeroedPci rest)).mem
  have hslotNamed := h.slot
  rw [devPciSlot_mem hn,if_pos hpos] at hslotNamed
  by_cases hfit : (printItems printSigned (slotItems n (slotNumber p))).length ≤ 15
  · obtain ⟨hname,-⟩ := hfits hfit
    have hcomplete := hslotNamed.resolve_right (slot_head hname)
    have heq := hasName_unique (nul_completeName hls) (nul_printItems hls) hcomplete hname
    exact ⟨printable_of_eq hls heq,by rwa [heq]⟩
  · have hname := hcut (Nat.lt_of_not_le hfit)
    have hnul := not_mem_take (nul_printItems hls) 15
    have hlen : 0 < ((printItems printSigned (slotItems n (slotNumber p))).take 15).length := by
      rw [List.length_take]
      omega
    have hcomplete := hslotNamed.resolve_right (hname.head hnul hlen)
    have heq := hasName_unique hnul (nul_completeName hls) hname hcomplete
    exact (take_ne_complete hls (Nat.lt_of_not_le hfit) heq).elim

end Named

theorem path_of_fits (h : PathFits n rest) :
    (HasName (composePciPath n (zeroedPci rest)).mem 16 (completeName (pathItems n)) ∧
        (composePciPath n (zeroedPci rest)).mem 16 ≠ 0 ∨
      (composePciPath n (zeroedPci rest)).mem 16 = 0 ∧ 15 < (completeName (pathItems n)).length) ∧
    ∀ i, i < 16 ∨ 32 ≤ i → (composePciPath n (zeroedPci rest)).mem i = zeroedPci rest i := by
  obtain ⟨hfits,hcut⟩ := composePciPath_spec n (zeroedPci rest)
  rcases h with ⟨hprint,hlen⟩ | ⟨hlong,hcutOff,hrest⟩
  · rw [← printItems_small hprint] at hlen ⊢
    obtain ⟨hname,hframe⟩ := hfits hlen
    exact ⟨Or.inl ⟨hname,path_head hname⟩,hframe⟩
  · obtain ⟨hzero,hbehind,hframe⟩ := hcut hcutOff
    refine ⟨Or.inr ⟨hzero,hlong⟩,fun i hi => ?_⟩
    by_cases h32 : i = 32
    · rw [h32,hbehind]
      exact hrest.symm
    · exact hframe i (by omega)

theorem slot_of_fits (h : SlotFits n (slotNumber p)) (hpos : 0 < slotNumber p) (mem : ℤ → UInt8) :
    HasName (composePciSlot n (slotNumber p) mem).mem 0 (completeName (slotItems n (slotNumber p))) ∧
      (composePciSlot n (slotNumber p) mem).mem 0 ≠ 0 ∧
      ∀ i, i < 0 ∨ 16 ≤ i → (composePciSlot n (slotNumber p) mem).mem i = mem i := by
  obtain ⟨hprint,hlen⟩ := h hpos
  rw [← printItems_small hprint] at hlen ⊢
  obtain ⟨hname,hframe⟩ := (composePciSlot_spec n hpos (slotNumber_lt p) mem).1 hlen
  exact ⟨hname,slot_head hname,hframe⟩

/-- The names are complete or empty, and nothing else is changed, exactly where the numbers are printed as
they are and the names fit, or where only the path is too long and `pci_onboard` is empty. -/
theorem pci_slot_iff (hn : numbers p = some n) (rest : ℤ → UInt8) :
    PciNamed p n (zeroedPci rest) ↔ PathFits n rest ∧ SlotFits n (slotNumber p) := by
  refine ⟨fun h => ⟨pathFits_of_named h,slotFits_of_named h hn⟩,?_⟩
  rintro ⟨hpathFits,hslotFits⟩
  obtain ⟨hpath,hpathFrame⟩ := path_of_fits hpathFits
  have hmem := devPciSlot_mem hn (zeroedPci rest)
  have hslotFrame : ∀ i, i < 0 ∨ 16 ≤ i →
      (devPciSlot p (zeroedPci rest)).1 i = (composePciPath n (zeroedPci rest)).mem i := by
    intro i hi
    rw [hmem]
    split_ifs with hpos
    · exact (slot_of_fits hslotFits hpos _).2.2 i hi
    · rfl
  have hsame := hslotFrame 16 (Or.inr (Int.le_refl _))
  constructor
  · rcases hpath with ⟨hname,-⟩ | ⟨hzero,-⟩
    · exact Or.inl (hname.congr fun i hi _ => hslotFrame i (Or.inr hi))
    · exact Or.inr (hsame.trans hzero)
  · intro hzero
    rcases hpath with ⟨-,hne⟩ | ⟨-,hlong⟩
    · exact absurd (hsame.symm.trans hzero) hne
    · exact hlong
  · rw [hmem]
    split_ifs with hpos
    · exact Or.inl (slot_of_fits hslotFits hpos _).1
    · right
      rw [hpathFrame 0 (by omega)]
      rfl
  · intro hzero
    by_cases hpos : slotNumber p > 0
    · rw [hmem,if_pos hpos] at hzero
      exact absurd hzero (slot_of_fits hslotFits hpos _).2.1
    · exact Or.inl (Int.not_lt.mp hpos)
  · exact hpathFrame
  · exact hslotFrame

/-- A card of many functions in a hotplug slot. -/
def hotplugCard : PciDevice where
  sysname := str "0001:02:03.1"
  config := some (List.replicate 14 0 ++ 0x80::List.replicate 49 0)
  devPort := some (str "5")
  slots := .ok [(str "..",none),(str "6",some (str "0001:02:03"))]

theorem pci_slot_iff_card : slotNumber hotplugCard = 6 ∧ PciNamed hotplugCard ⟨1,2,3,1,5,true⟩ (zeroedPci fun _ => 0) := by
  have hslot : slotNumber hotplugCard = 6 := by decide +kernel
  refine ⟨hslot,(pci_slot_iff (by decide +kernel) _).mpr ⟨Or.inl ⟨?_,by decide +kernel⟩,fun _ => ?_⟩⟩
  · exact List.forall_iff_forall_mem.mp (by decide +kernel)
  · rw [hslot]
    exact ⟨List.forall_iff_forall_mem.mp (by decide +kernel),by decide +kernel⟩

/-- A device of which the slot has a name of 16 characters. -/
def longSlot : PciDevice :=
  ⟨str "ffff:02:00.1",none,some (str "12"),.ok [(str "8191",some (str "ffff:02:00"))]⟩

/-- Its path of 15 characters is emptied, and the begin of the name of its slot stays. -/
theorem pci_slot_cut : numbers longSlot = some ⟨65535,2,0,1,12,false⟩ ∧
    ¬PciNamed longSlot ⟨65535,2,0,1,12,false⟩ (zeroedPci fun _ => 0) := by
  constructor
  · decide +kernel
  · intro h
    rcases h.slot with hname | hempty
    · have hlen : (completeName (slotItems ⟨65535,2,0,1,12,false⟩ (slotNumber longSlot))).length = 16 := by
        decide +kernel
      have hlt := hname.1
      omega
    · have hfirst : (devPciSlot longSlot (zeroedPci fun _ => 0)).1 0 = chr 'P' := by decide +kernel
      rw [hfirst] at hempty
      exact absurd hempty (by decide)

end NetNames
end Udev
