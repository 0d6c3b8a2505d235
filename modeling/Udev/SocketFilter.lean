import Udev.ClassicBpf
import Udev.Monitor

/-! The filter that a monitor installs in the kernel: its program is built from the
matches, and it is run on the header of a message before the message is delivered.
The jump over the tag matches is kept in eight bits. -/
namespace Udev
namespace SocketFilter

open CString Device Text ClassicBpf Monitor

def murmurWords : CString → List UInt32
  | a::b::c::d::s =>
    .ofNat (a.toNat+(b.toNat+(c.toNat+d.toNat*0x100)*0x100)*0x100)::murmurWords s
  | _ => []

def murmurTail : CString → List UInt8
  | _::_::_::_::s => murmurTail s
  | s => s

def utilStringHash32 (s : CString) : UInt32 :=
  let m : UInt32 := 0x5bd1e995
  let mix (h k : UInt32) : UInt32 :=
    let k := k*m
    let k := k ^^^ k >>> 24
    (h*m) ^^^ (k*m)
  let h := (murmurWords s).foldl mix (.ofNat s.length)
  let h : UInt32 :=
    match murmurTail s with
    | [a] => (h ^^^ a.toUInt32)*m
    | [a,b] => (h ^^^ b.toUInt32 <<< 8 ^^^ a.toUInt32)*m
    | [a,b,c] => (h ^^^ c.toUInt32 <<< 16 ^^^ b.toUInt32 <<< 8 ^^^ a.toUInt32)*m
    | _ => h
  let h : UInt32 := h ^^^ h >>> 13
  let h := h*m
  h ^^^ h >>> 15

section Filter

variable (hash : CString → UInt32)

def utilStringBloom64 (s : CString) : UInt64 :=
  let bit (n : ℕ) : UInt64 := 1 <<< ((hash s >>> UInt32.ofNat n) &&& 63).toUInt64
  bit 0 ||| bit 6 ||| bit 12 ||| bit 18

def hi (bits : UInt64) : UInt32 := (bits >>> 32).toUInt32

def lo (bits : UInt64) : UInt32 := bits.toUInt32

def magic : UInt32 := 0xfeedcafe

def pass : UInt32 := 0xffffffff

def tagBlock (bits : UInt64) (left : ℕ) : List Insn :=
  [.ldAbs 32,.and (hi bits),.jeq (hi bits) 0 3,
   .ldAbs 36,.and (lo bits),.jeq (lo bits) (.ofNat (1+left*6)) 0]

def tagBlocks : UdevList → List Insn
  | [] => []
  | e::es => tagBlock (utilStringBloom64 hash e.name) es.length ++ tagBlocks es

def subsystemBlock (e : ListEntry) : List Insn :=
  match e.value with
  | none => [.ldAbs 24,.jeq (hash e.name) 0 1,.ret pass]
  | some devtype =>
    [.ldAbs 24,.jeq (hash e.name) 0 3,.ldAbs 28,.jeq (hash devtype) 0 1,.ret pass]

/-- The loop over the subsystems, with the number of instructions before it. -/
def subsystemBlocks : ℕ → UdevList → Option (List Insn)
  | _, [] => some []
  | i, e::es =>
    let b := subsystemBlock hash e
    if i+b.length+1 ≥ 512 then none else (subsystemBlocks (i+b.length) es).map (b ++ ·)

def programStart : List Insn := [.ldAbs 8,.jeq magic 1 0,.ret pass]

def tagPart (tags : UdevList) : List Insn := if tags = [] then [] else tagBlocks hash tags ++ [.ret 0]

/-- The program of `udev_monitor_filter_update`; `none` is `-E2BIG`. -/
def filterProgram (m : Filter) : Option (List Insn) :=
  let start := programStart ++ tagPart hash m.filterTagList
  if m.filterSubsystemList = [] then some (start ++ [.ret pass])
  else (subsystemBlocks hash start.length m.filterSubsystemList).map fun b => start ++ (b ++ [.ret 0,.ret pass])

/-- `udev_monitor_filter_update`: without a match nothing is installed, and the kernel
refuses a program of more than 4096 instructions. -/
def filterUpdate (m : Filter) : Option (Option (List Insn)) :=
  if m.filterSubsystemList = [] ∧ m.filterTagList = [] then some none
  else (filterProgram hash m).bind fun p => if p.length ≤ 4096 then some (some p) else none

/-- `udev_device_get_properties_monitor_buf`: the strings with their terminators. -/
def monitorBuf (d : Device) : Option (List UInt8) := d.propertiesEnvp.1.map fun envp => envp.flatMap (· ++ [0])

def tagBloomBits (d : Device) : UInt64 :=
  d.tagsList.foldl (fun bits e => bits ||| utilStringBloom64 hash e.name) 0

/-- `struct udev_monitor_netlink_header` for a subsystem and a length of the properties;
the words that the kernel reads are in network order. -/
def header (d : Device) (subsystem : CString) (blen : ℕ) : List UInt8 :=
  str "libudev" ++ [0] ++ be32 magic ++
  (be32 40).reverse ++ (be32 40).reverse ++ (be32 (.ofNat blen)).reverse ++
  be32 (hash subsystem) ++ be32 (d.devtype.elim 0 hash) ++
  be32 (hi (tagBloomBits hash d)) ++ be32 (lo (tagBloomBits hash d))

/-- The message of `udev_monitor_send_device`. -/
def sendDevice (d : Device) : Option (List UInt8) :=
  d.subsystem.bind fun subsystem => (monitorBuf d).bind fun buf =>
    if buf.length < 32 then none else some (header hash d subsystem buf.length ++ buf)

end Filter

/-- The words that the program reads from the header. -/
structure Loads (pkt : List UInt8) (subsystem devtype bloomHi bloomLo : UInt32) : Prop where
  magic : loadWord pkt 8 = some SocketFilter.magic
  subsystem : loadWord pkt 24 = some subsystem
  devtype : loadWord pkt 28 = some devtype
  bloomHi : loadWord pkt 32 = some bloomHi
  bloomLo : loadWord pkt 36 = some bloomLo

theorem loads_header (hash : CString → UInt32) (d : Device) (subsystem : CString) (buf : List UInt8) :
    Loads (header hash d subsystem buf.length ++ buf) (hash subsystem) (d.devtype.elim 0 hash)
      (hi (tagBloomBits hash d)) (lo (tagBloomBits hash d)) := by
  let sizes := (be32 40).reverse ++ (be32 40).reverse ++ (be32 (.ofNat buf.length)).reverse
  let start := str "libudev" ++ [0] ++ be32 magic ++ sizes
  let s := be32 (hash subsystem)
  let t := be32 (d.devtype.elim 0 hash)
  let u := be32 (hi (tagBloomBits hash d))
  let v := be32 (lo (tagBloomBits hash d))
  have hload : ∀ (pre post : List UInt8) (w : UInt32) (off : ℕ), off = pre.length →
      pre ++ be32 w ++ post = header hash d subsystem buf.length ++ buf →
      loadWord (header hash d subsystem buf.length ++ buf) off = some w := by
    intro pre post w off hoff heq
    rw [← heq]
    exact loadWord_be32 pre post w hoff
  constructor
  · exact hload (str "libudev" ++ [0]) (sizes ++ s ++ t ++ u ++ v ++ buf) _ 8 rfl
      (by simp only [header,sizes,s,t,u,v,List.append_assoc])
  · exact hload start (t ++ u ++ v ++ buf) _ 24 rfl
      (by simp only [header,start,sizes,t,u,v,List.append_assoc])
  · exact hload (start ++ s) (u ++ v ++ buf) _ 28 rfl
      (by simp only [header,start,sizes,s,u,v,List.append_assoc])
  · exact hload (start ++ s ++ t) (v ++ buf) _ 32 rfl
      (by simp only [header,start,sizes,s,t,v,List.append_assoc])
  · exact hload (start ++ s ++ t ++ u) buf _ 36 rfl
      (by simp only [header,start,sizes,s,t,u,List.append_assoc])

theorem tagBlocks_length (hash : CString → UInt32) (tags : UdevList) :
    (tagBlocks hash tags).length = tags.length*6 := by
  induction tags with
  | nil => rfl
  | cons e es ih =>
    simp only [tagBlocks,tagBlock,List.length_append,List.length_cons,List.length_nil,ih]
    omega

section Run

variable {pkt : List UInt8} {subsystem devtype bloomHi bloomLo : UInt32}
  (hl : Loads pkt subsystem devtype bloomHi bloomLo)
include hl

theorem exec_start (p : List Insn) (a : UInt32) :
    exec pkt 0 (programStart ++ p) a = exec pkt 0 p magic := by
  simp only [programStart,List.cons_append,List.nil_append]
  rw [exec_ldAbs hl.magic,exec_jeq,if_pos rfl]
  rfl

theorem exec_tagBlock (bits : UInt64) (left : ℕ) (p : List Insn) (a : UInt32) :
    exec pkt 0 (tagBlock bits left ++ p) a =
      if bloomHi &&& hi bits = hi bits then
        if bloomLo &&& lo bits = lo bits then
          exec pkt (UInt8.ofNat (1+left*6)).toNat p (bloomLo &&& lo bits)
        else exec pkt 0 p (bloomLo &&& lo bits)
      else exec pkt 0 p (bloomHi &&& hi bits) := by
  simp only [tagBlock,List.cons_append,List.nil_append]
  rw [exec_ldAbs hl.bloomHi,exec_and,exec_jeq]
  refine if_congr Iff.rfl ?_ rfl
  change exec pkt 0 (Insn.ldAbs 36::_) _ = _
  rw [exec_ldAbs hl.bloomLo,exec_and,exec_jeq]
  rfl

theorem exec_tagBlocks (hash : CString → UInt32) (tags : UdevList) (hlen : tags.length ≤ 43)
    (hmatch : ∃ e ∈ tags, bloomHi &&& hi (utilStringBloom64 hash e.name) = hi (utilStringBloom64 hash e.name) ∧
      bloomLo &&& lo (utilStringBloom64 hash e.name) = lo (utilStringBloom64 hash e.name))
    (p : List Insn) (a : UInt32) :
    ∃ a', exec pkt 0 (tagBlocks hash tags ++ .ret 0::p) a = exec pkt 0 p a' := by
  induction tags generalizing a with
  | nil => simp at hmatch
  | cons e es ih =>
    rw [tagBlocks,List.append_assoc,exec_tagBlock hl]
    by_cases hhit : bloomHi &&& hi (utilStringBloom64 hash e.name) = hi (utilStringBloom64 hash e.name) ∧
        bloomLo &&& lo (utilStringBloom64 hash e.name) = lo (utilStringBloom64 hash e.name)
    · rw [if_pos hhit.1,if_pos hhit.2]
      have hjt : (UInt8.ofNat (1+es.length*6)).toNat = (tagBlocks hash es ++ [Insn.ret 0]).length := by
        rw [List.length_append,tagBlocks_length,UInt8.toNat_ofNat_of_lt']
        · simp
          omega
        · simp at hlen
          have : UInt8.size = 256 := rfl
          omega
      have happ : tagBlocks hash es ++ .ret 0::p = tagBlocks hash es ++ [.ret 0] ++ p := by simp
      rw [happ,exec_skip hjt]
      exact ⟨_,rfl⟩
    · obtain ⟨x,hx,hxm⟩ := hmatch
      have hes : x ∈ es := (List.mem_cons.mp hx).resolve_left fun h => hhit (h ▸ hxm)
      have hnext := fun a => ih (by simp at hlen; omega) ⟨x,hes,hxm⟩ a
      split_ifs with h₁ h₂
      · exact absurd ⟨h₁,h₂⟩ hhit
      · exact hnext _
      · exact hnext _

/-- The subsystem of a match, and its devtype if it has one, have the hashes of the header. -/
def Hits (hash : CString → UInt32) (subsystem devtype : UInt32) (e : ListEntry) : Prop :=
  subsystem = hash e.name ∧ ∀ v, e.value = some v → devtype = hash v

theorem exec_subsystemBlock (hash : CString → UInt32) (e : ListEntry) (p : List Insn) (a : UInt32) :
    Hits hash subsystem devtype e ∧ exec pkt 0 (subsystemBlock hash e ++ p) a = pass ∨
      ¬Hits hash subsystem devtype e ∧
        ∃ a', exec pkt 0 (subsystemBlock hash e ++ p) a = exec pkt 0 p a' := by
  unfold Hits subsystemBlock
  cases e.value with
  | none =>
    simp only [List.cons_append,List.nil_append]
    rw [exec_ldAbs hl.subsystem,exec_jeq]
    split_ifs with h
    · exact Or.inl ⟨⟨h,by simp⟩,rfl⟩
    · exact Or.inr ⟨fun hh => h hh.1,_,rfl⟩
  | some v =>
    simp only [List.cons_append,List.nil_append]
    rw [exec_ldAbs hl.subsystem,exec_jeq]
    split_ifs with h
    · change _ ∧ exec pkt 0 (Insn.ldAbs 28::_) _ = _ ∨ _ ∧ ∃ a', exec pkt 0 (Insn.ldAbs 28::_) _ = _
      rw [exec_ldAbs hl.devtype,exec_jeq]
      split_ifs with h'
      · exact Or.inl ⟨⟨h,by simp [h']⟩,rfl⟩
      · exact Or.inr ⟨fun hh => h' (hh.2 v rfl),_,rfl⟩
    · exact Or.inr ⟨fun hh => h hh.1,_,rfl⟩

theorem exec_subsystemBlocks (hash : CString → UInt32) (l : UdevList) {i : ℕ} {b : List Insn}
    (hb : subsystemBlocks hash i l = some b) (hmatch : ∃ e ∈ l, Hits hash subsystem devtype e)
    (p : List Insn) (a : UInt32) : exec pkt 0 (b ++ p) a = pass := by
  induction l generalizing i b a with
  | nil => simp at hmatch
  | cons e es ih =>
    simp only [subsystemBlocks] at hb
    split_ifs at hb
    obtain ⟨b',hb',rfl⟩ := Option.map_eq_some_iff.mp hb
    rw [List.append_assoc]
    rcases exec_subsystemBlock hl hash e (b' ++ p) a with ⟨_,heq⟩ | ⟨hmiss,a',heq⟩
    · exact heq
    · obtain ⟨x,hx,hhit⟩ := hmatch
      have hes : x ∈ es := (List.mem_cons.mp hx).resolve_left fun h => hmiss (h ▸ hhit)
      rw [heq]
      exact ih hb' ⟨x,hes,hhit⟩ a'

/-- Tags that have none of the bits of the device: from every instruction of their
matches the message is dropped. -/
theorem exec_tagBlocks_miss (hash : CString → UInt32) (tags : UdevList)
    (hhi : bloomHi = 0) (hlo : bloomLo = 1)
    (hbits : ∀ e ∈ tags, hi (utilStringBloom64 hash e.name) = 2 ∧ lo (utilStringBloom64 hash e.name) = 2)
    (p : List Insn) (k : ℕ) (hk : k ≤ tags.length*6) (a : UInt32) (ha : a = 0 ∨ a = 1) :
    exec pkt k (tagBlocks hash tags ++ .ret 0::p) a = 0 := by
  induction tags generalizing k a with
  | nil =>
    obtain rfl : k = 0 := by simpa using hk
    rfl
  | cons e es ih =>
    obtain ⟨hehi,helo⟩ := hbits e (by simp)
    have hnext := fun k hk a ha => ih (fun x hx => hbits x (by simp [hx])) k hk a ha
    rw [tagBlocks,List.append_assoc]
    by_cases hlast : 6 ≤ k
    · have hsplit : k = (tagBlock (utilStringBloom64 hash e.name) es.length).length+(k-6) := by
        simp only [tagBlock,List.length_cons,List.length_nil]
        omega
      rw [hsplit,exec_append]
      exact hnext _ (by simp at hk; omega) a ha
    · have hand : ∀ b : UInt32, b = 0 ∨ b = 1 → b &&& 2 ≠ 2 ∧ (b &&& 2 = 0 ∨ b &&& 2 = 1) ∧ b ≠ 2 := by
        rintro b (rfl | rfl) <;> decide
      obtain ⟨hahi,hahi',ha2⟩ := hand a ha
      have hzero : (0 : UInt32) &&& 2 ≠ 2 := by decide
      have hone : (1 : UInt32) &&& 2 ≠ 2 := by decide
      have hnext := hnext 0 (Nat.zero_le _)
      have hcases : k = 0 ∨ k = 1 ∨ k = 2 ∨ k = 3 ∨ k = 4 ∨ k = 5 := by omega
      rcases hcases with rfl | rfl | rfl | rfl | rfl | rfl
      all_goals
        simp only [tagBlock,hehi,helo,List.cons_append,List.nil_append,exec,hl.bloomHi,hl.bloomLo,hhi,hlo]
      · rw [if_neg hzero]
        exact hnext _ (by decide)
      · rw [if_neg hahi]
        exact hnext _ hahi'
      · rw [if_neg ha2]
        exact hnext _ ha
      · rw [if_neg hone]
        exact hnext _ (by decide)
      · rw [if_neg hahi]
        exact hnext _ hahi'
      · rw [if_neg ha2]
        exact hnext _ ha

end Run

theorem and_or_left {x y b : UInt64} (h : x &&& b = b) : (x ||| y) &&& b = b := by
  rw [← UInt64.toBitVec_inj] at h ⊢
  ext i hi
  have hbit := congrArg (·[i]) h
  simp at hbit ⊢
  intro hb
  exact Or.inl (hbit hb)

theorem and_or_right {x y b : UInt64} (h : y &&& b = b) : (x ||| y) &&& b = b := by
  rw [UInt64.or_comm]
  exact and_or_left h

theorem hi_and {x b : UInt64} (h : x &&& b = b) : hi x &&& hi b = hi b := by
  have : hi (x &&& b) = hi x &&& hi b := by
    rw [← UInt32.toBitVec_inj]
    ext i hi
    simp [SocketFilter.hi]
  rw [← this,h]

theorem lo_and {x b : UInt64} (h : x &&& b = b) : lo x &&& lo b = lo b := by
  have : lo (x &&& b) = lo x &&& lo b := by simp [lo]
  rw [← this,h]

theorem tagBloomBits_and (hash : CString → UInt32) (d : Device) {e : ListEntry} (he : e ∈ d.tagsList) :
    tagBloomBits hash d &&& utilStringBloom64 hash e.name = utilStringBloom64 hash e.name := by
  have hkeep : ∀ (l : UdevList) (bits b : UInt64), bits &&& b = b →
      l.foldl (fun bits e => bits ||| utilStringBloom64 hash e.name) bits &&& b = b := by
    intro l
    induction l with
    | nil => exact fun _ _ h => h
    | cons x l ih => exact fun bits b h => ih _ b (and_or_left h)
  have hall : ∀ (l : UdevList) (bits : UInt64), e ∈ l →
      l.foldl (fun bits e => bits ||| utilStringBloom64 hash e.name) bits &&&
        utilStringBloom64 hash e.name = utilStringBloom64 hash e.name := by
    intro l
    induction l with
    | nil => simp
    | cons x l ih =>
      intro bits hmem
      rcases List.mem_cons.mp hmem with rfl | hmem
      · exact hkeep l _ _ (and_or_right UInt64.and_self)
      · exact ih _ hmem
  exact hall d.tagsList 0 he

/-- A device that passes the user-space test passes the program, with at most 43 tags. -/
theorem filterProgram_passes {hash : CString → UInt32} {m : Filter} {prog : List Insn}
    (hprog : filterProgram hash m = some prog) (hlen : m.filterTagList.length ≤ 43) {d : Device}
    (hpass : passesFilter m d = true) {subsystem : CString} (hs : d.subsystem = some subsystem)
    (buf : List UInt8) : exec (header hash d subsystem buf.length ++ buf) 0 prog 0 = pass := by
  have hl := loads_header hash d subsystem buf
  simp only [passesFilter,Bool.and_eq_true,Bool.or_eq_true,List.isEmpty_iff] at hpass
  obtain ⟨hsub,htag⟩ := hpass
  have htags : ∀ (p : List Insn) (a : UInt32), ∃ a',
      exec (header hash d subsystem buf.length ++ buf) 0 (tagPart hash m.filterTagList ++ p) a =
        exec (header hash d subsystem buf.length ++ buf) 0 p a' := by
    intro p a
    unfold tagPart
    split_ifs with hnil
    · exact ⟨a,rfl⟩
    · obtain ⟨e,he,htag⟩ := List.any_eq_true.mp (htag.resolve_left hnil)
      obtain ⟨x,hx,hname⟩ := List.mem_map.mp (hasTag_iff.mp htag)
      have hbits := tagBloomBits_and hash d hx
      rw [hname] at hbits
      rw [List.append_assoc]
      exact exec_tagBlocks hl hash _ hlen ⟨e,he,hi_and hbits,lo_and hbits⟩ p a
  unfold filterProgram at hprog
  simp only at hprog
  split_ifs at hprog with hnil
  · cases hprog
    rw [List.append_assoc,exec_start hl]
    obtain ⟨a',ha'⟩ := htags [.ret pass] magic
    rw [ha',exec_ret]
  · obtain ⟨b,hb,rfl⟩ := Option.map_eq_some_iff.mp hprog
    rw [List.append_assoc,exec_start hl]
    obtain ⟨a',ha'⟩ := htags (b ++ [.ret 0,.ret pass]) magic
    rw [ha']
    obtain ⟨e,he,hmatch⟩ := List.any_eq_true.mp (hsub.resolve_left hnil)
    simp only [matchesSubsystem,Bool.and_eq_true,Bool.or_eq_true,decide_eq_true_eq,
      Option.isNone_iff_eq_none,hs] at hmatch
    refine exec_subsystemBlocks hl hash _ hb ⟨e,he,?_,?_⟩ _ a'
    · rw [Option.some.inj hmatch.1]
    · intro v hv
      rw [hmatch.2.resolve_left (by simp [hv]),hv]
      rfl

/-- A hash under which one tag has the lowest bit and all others share a bit of each word. -/
def oneTagHash (tag s : CString) : UInt32 := if s = tag then 0 else 0x41841

def oneTagDevice (subsystem : CString) (devtype : Option CString) (tag : CString) : Device where
  devpath := str "/devices/virtual/block/loop0/test"
  subsystem := some subsystem
  devtype := devtype
  tagsList := [⟨tag,none,0⟩]
  propertiesList := [⟨str "DEVPATH",some (str "/devices/virtual/block/loop0/test"),0⟩]

theorem oneTagHash_bits (tag s : CString) : utilStringBloom64 (oneTagHash tag) s = if s = tag then 1 else 0x200000002 := by
  unfold utilStringBloom64 oneTagHash
  split_ifs <;> decide

theorem sendDevice_oneTagDevice (hash : CString → UInt32) (subsystem : CString) (devtype : Option CString)
    (tag : CString) : ∃ buf : List UInt8, sendDevice hash (oneTagDevice subsystem devtype tag) =
      some (header hash (oneTagDevice subsystem devtype tag) subsystem buf.length ++ buf) := by
  have hlen : (tagsValue [⟨tag,none,0⟩]).length < 1024 := strscpyl_length (by decide) _
  have hsync : (oneTagDevice subsystem devtype tag).sync.propertiesList =
      [⟨str "DEVPATH",some (str "/devices/virtual/block/loop0/test"),0⟩,
        ⟨str "TAGS",some (tagsValue [⟨tag,none,0⟩]),0⟩] := rfl
  have henvp : ∃ envp, envpLoop (oneTagDevice subsystem devtype tag).sync.propertiesList 0 4096 =
      some (str "DEVPATH=/devices/virtual/block/loop0/test"::envp) := by
    have hTags : charAt (str "TAGS") 0 ≠ chr '.' := by decide
    rw [hsync,envpLoop_cons (by decide) (by decide) (by decide),envpLoop_cons hTags (by decide) ?_]
    · exact ⟨_,rfl⟩
    · have h₁ : (str "TAGS" ++ str "=").length = 5 := rfl
      rw [List.length_append,h₁]
      exact (Nat.add_lt_add_left hlen 5).trans (by decide)
  obtain ⟨envp,henvp⟩ := henvp
  have hbuf : monitorBuf (oneTagDevice subsystem devtype tag) =
      some ((str "DEVPATH=/devices/virtual/block/loop0/test"::envp).flatMap (· ++ [0])) := by
    have : (oneTagDevice subsystem devtype tag).envpUptodate = false := rfl
    simp only [monitorBuf,propertiesEnvp,this,henvp]
    rfl
  have hbig : ¬((str "DEVPATH=/devices/virtual/block/loop0/test"::envp).flatMap (· ++ [0])).length < 32 := by
    have : (str "DEVPATH=/devices/virtual/block/loop0/test" ++ [0]).length = 42 := rfl
    rw [List.flatMap_cons,List.length_append,this]
    omega
  have hs : (oneTagDevice subsystem devtype tag).subsystem = some subsystem := rfl
  refine ⟨(str "DEVPATH=/devices/virtual/block/loop0/test"::envp).flatMap (· ++ [0]),?_⟩
  rw [sendDevice,hs,hbuf,Option.bind_some,Option.bind_some,if_neg hbig]

/-- Behind 43 other tags the jump of the first tag ends inside their matches, and the
message is dropped there. -/
theorem filterProgram_drops {m : Filter} {prog : List Insn} {tag subsystem : CString} {devtype : Option CString}
    {e : ListEntry} {es : UdevList} (hprog : filterProgram (oneTagHash tag) m = some prog)
    (htags : m.filterTagList = e::es) (hname : e.name = tag) (hother : ∀ x ∈ es, x.name ≠ tag)
    (hlen : 43 ≤ es.length) (buf : List UInt8) :
    exec (header (oneTagHash tag) (oneTagDevice subsystem devtype tag) subsystem buf.length ++ buf) 0 prog 0 =
      0 := by
  have hl := loads_header (oneTagHash tag) (oneTagDevice subsystem devtype tag) subsystem buf
  have hbloom : tagBloomBits (oneTagHash tag) (oneTagDevice subsystem devtype tag) = 1 := by
    change 0 ||| utilStringBloom64 (oneTagHash tag) tag = 1
    rw [oneTagHash_bits,if_pos rfl]
    rfl
  have hstart : ∃ p, prog = programStart ++ (tagBlocks (oneTagHash tag) m.filterTagList ++ Insn.ret 0::p) := by
    unfold filterProgram at hprog
    simp only [tagPart,htags,if_neg (List.cons_ne_nil e es)] at hprog
    rw [htags]
    split_ifs at hprog
    · cases hprog
      exact ⟨[.ret pass],by simp⟩
    · obtain ⟨b,-,rfl⟩ := Option.map_eq_some_iff.mp hprog
      exact ⟨b ++ [.ret 0,.ret pass],by simp⟩
  obtain ⟨p,rfl⟩ := hstart
  rw [exec_start hl,htags,tagBlocks,List.append_assoc,exec_tagBlock hl,oneTagHash_bits,if_pos hname,hbloom,
    if_pos (by decide),if_pos (by decide)]
  refine exec_tagBlocks_miss hl (oneTagHash tag) es (by rw [hbloom]; rfl) (by rw [hbloom]; rfl) ?_ p _ ?_ _
    (Or.inr (by decide))
  · intro x hx
    rw [oneTagHash_bits,if_neg (hother x hx)]
    decide
  · have hjt : (UInt8.ofNat (1+es.length*6)).toNat < 256 := UInt8.toNat_lt _
    omega

theorem filterProgram_of_filterUpdate {hash : CString → UInt32} {m : Filter} {prog : List Insn}
    (h : filterUpdate hash m = some (some prog)) : filterProgram hash m = some prog := by
  unfold filterUpdate at h
  split_ifs at h
  · cases h
  · obtain ⟨p,hp,hlen⟩ := Option.bind_eq_some_iff.mp h
    split_ifs at hlen
    cases hlen
    exact hp

/-- Some device of one tag passes the test of a monitor that asks for this tag. -/
theorem exists_oneTagDevice_passes {m : Filter} {e : ListEntry} (he : e ∈ m.filterTagList) :
    ∃ subsystem devtype, passesFilter m (oneTagDevice subsystem devtype e.name) = true := by
  have htag : ∀ subsystem devtype, (oneTagDevice subsystem devtype e.name).hasTag e.name = true := fun _ _ =>
    hasTag_iff.mpr (List.mem_singleton_self _)
  have hany : ∀ subsystem devtype,
      (m.filterTagList.any fun x => (oneTagDevice subsystem devtype e.name).hasTag x.name) = true := fun _ _ =>
    List.any_eq_true.mpr ⟨e,he,htag _ _⟩
  cases hsub : m.filterSubsystemList with
  | nil => exact ⟨[],none,by simp [passesFilter,hsub,hany]⟩
  | cons x xs =>
    have hmatch : matchesSubsystem (oneTagDevice x.name x.value e.name) x = true := by
      simp [matchesSubsystem,oneTagDevice]
    exact ⟨x.name,x.value,by simp [passesFilter,hsub,hany,hmatch]⟩

/-- No message that the test accepts is dropped, under any hash, exactly with at most
43 tags. -/
theorem socket_filter_lossless_iff (cs : List Call) (hok : ∀ hash, filterUpdate hash (calls cs) ≠ none) :
    (∀ hash prog d pkt, filterUpdate hash (calls cs) = some (some prog) → passesFilter (calls cs) d = true →
      sendDevice hash d = some pkt → exec pkt 0 prog 0 ≠ 0) ↔ (calls cs).filterTagList.length ≤ 43 := by
  constructor
  · intro h
    by_contra hlen
    obtain ⟨e,es,htags⟩ : ∃ e es, (calls cs).filterTagList = e::es := by
      cases hl : (calls cs).filterTagList with
      | nil => simp [hl] at hlen
      | cons e es => exact ⟨e,es,rfl⟩
    have hother : ∀ x ∈ es, x.name ≠ e.name := by
      have hnodup := (sorted_calls_tags cs).nodup_names
      rw [htags,List.map_cons,List.nodup_cons] at hnodup
      intro x hx heq
      exact hnodup.1 (heq ▸ List.mem_map_of_mem hx)
    obtain ⟨prog,hprog⟩ : ∃ prog, filterUpdate (oneTagHash e.name) (calls cs) = some (some prog) := by
      have hne : ¬((calls cs).filterSubsystemList = [] ∧ (calls cs).filterTagList = []) := by simp [htags]
      have hok := hok (oneTagHash e.name)
      rw [filterUpdate,if_neg hne] at hok ⊢
      cases hp : filterProgram (oneTagHash e.name) (calls cs) with
      | none => simp [hp] at hok
      | some p =>
        rw [hp,Option.bind_some] at hok
        split_ifs at hok with hsize
        · exact ⟨p,if_pos hsize⟩
        · exact absurd rfl hok
    obtain ⟨subsystem,devtype,hpass⟩ :=
      exists_oneTagDevice_passes (m := calls cs) (e := e) (htags ▸ List.mem_cons_self)
    obtain ⟨buf,hsend⟩ := sendDevice_oneTagDevice (oneTagHash e.name) subsystem devtype e.name
    have hmany : 43 ≤ es.length := by
      rw [htags,List.length_cons] at hlen
      omega
    exact h _ _ _ _ hprog hpass hsend
      (filterProgram_drops (filterProgram_of_filterUpdate hprog) htags rfl hother hmany buf)
  · intro hlen hash prog d pkt hprog hpass hsend
    obtain ⟨subsystem,hs,hrest⟩ := Option.bind_eq_some_iff.mp hsend
    obtain ⟨buf,hbuf,hpkt⟩ := Option.bind_eq_some_iff.mp hrest
    split_ifs at hpkt
    cases hpkt
    rw [filterProgram_passes (filterProgram_of_filterUpdate hprog) hlen hpass hs buf]
    decide

/-- A monitor of one subsystem and two tags. -/
def seatCalls : List Call :=
  [.addSubsystem (some (str "block")) none,.addTag (some (str "seat")),.addTag (some (str "systemd"))]

theorem socket_filter_lossless_iff_seat : (calls seatCalls).filterTagList.length = 2 ∧
    ∀ hash prog d pkt, filterUpdate hash (calls seatCalls) = some (some prog) → passesFilter (calls seatCalls) d = true →
      sendDevice hash d = some pkt → exec pkt 0 prog 0 ≠ 0 :=
  ⟨by decide,(socket_filter_lossless_iff seatCalls fun _ h => by cases h).mpr (by decide)⟩

def manyTags : List Call := (List.range 44).map fun i =>
  .addTag (some (chr 't'::[.ofNat (0x31+i/10),.ofNat (0x30+i%10)]))

/-- With the hash of the source: the message of a device of the first tag is dropped. -/
theorem socket_filter_drops_first_tag : ∃ prog pkt,
    filterUpdate utilStringHash32 (calls manyTags) = some (some prog) ∧
      passesFilter (calls manyTags) (oneTagDevice (str "block") none (str "t10")) = true ∧
      sendDevice utilStringHash32 (oneTagDevice (str "block") none (str "t10")) = some pkt ∧
      exec pkt 0 prog 0 = 0 := by
  have hrun : ((filterUpdate utilStringHash32 (calls manyTags)).bind fun u => u.bind fun prog =>
      (sendDevice utilStringHash32 (oneTagDevice (str "block") none (str "t10"))).map fun pkt =>
        exec pkt 0 prog 0) = some 0 := by decide +kernel
  obtain ⟨u,hu,hrun⟩ := Option.bind_eq_some_iff.mp hrun
  obtain ⟨prog,rfl,hsent⟩ := Option.bind_eq_some_iff.mp hrun
  obtain ⟨pkt,hpkt,hexec⟩ := Option.map_eq_some_iff.mp hsent
  exact ⟨prog,pkt,hu,by decide +kernel,hpkt,hexec⟩

end SocketFilter
end Udev
