import Udev.Memory

/-! The search for the CIS block of a SmartMedia card. The loop passes its offset to `lseek` where the
`whence` belongs, so where a read begins depends on the reads before it. -/
namespace Udev
namespace SmartMedia

open CString

def smSectorSize : ℕ := 512

def smSmallPage : ℕ := 256

def cisSignature : List UInt8 := [0x01,0x03,0xd9,0x01,0xff,0x18,0x02,0xdf,0x01,0x20]

/-- The fields of `mtd_info_t` that are looked at; the offsets of the loop fit `int`. -/
structure MtdInfo where
  nandFlash : Bool
  writesize : ℕ
  erasesize : ℕ
  size : ℕ
  small : erasesize*24+smSectorSize < 2^31
  deriving DecidableEq, Repr

structure Device where
  bytes : Memory
  length : ℕ

/-- The file offset, `cis_buffer`, and where the reads began. -/
structure Probe where
  pos : ℕ
  buffer : Memory
  reads : List ℕ := []

/-- `lseek`: from the begin, from the offset or from the end; any other `whence` fails and moves nothing. -/
def Probe.lseek (dev : Device) (offset whence : ℕ) (p : Probe) : Probe :=
  if whence = 0 then { p with pos := offset }
  else if whence = 1 then { p with pos := p.pos+offset }
  else if whence = 2 then { p with pos := dev.length+offset }
  else p

/-- `read`, which fails or moves the offset by the bytes that it returns. -/
def Probe.read (dev : Device) (result : Option ℕ) (p : Probe) : Probe where
  pos := p.pos+result.getD 0
  buffer := fun i => if i < result.getD 0 then dev.bytes (p.pos+i) else p.buffer i
  reads := p.reads ++ [p.pos]

/-- How the probe ends: whether a sector was read, whether it was a CIS block, and the state. -/
structure Outcome where
  found : Bool
  printed : Bool := false
  probe : Probe

/-- `SEEK_SET` -/
def seekSet : ℕ := 0

/-- The loop of `probe_smart_media` after `k` reads; `none` when it has not come to its end. -/
def probeLoop (dev : Device) (results : ℕ → Option ℕ) (limit sectorSize : ℕ) : ℕ → ℕ → ℕ → Probe → Option (Bool × Probe)
  | 0, _, _, _ => none
  | n+1, k, offset, p =>
    if offset < limit then
      let p := (p.lseek dev seekSet offset).read dev (results k)
      if results k = some smSectorSize then some (true,p)
      else probeLoop dev results limit sectorSize n (k+1) (offset+sectorSize) p
    else some (false,p)

def spareCount (sizeInMegs : ℕ) : ℕ :=
  if sizeInMegs = 1 ∨ sizeInMegs = 2 then 6 else if sizeInMegs = 4 then 12 else 24

/-- `block_size * spare_count`, which is no more than an `int` holds. -/
def limit (info : MtdInfo) : ℕ := info.erasesize*spareCount (info.size/(1024*1024))

/-- `memcmp(cis_buffer + pos, cis_signature, sizeof(cis_signature)) == 0` -/
def hasSignature (buffer : Memory) (pos : ℕ) : Bool :=
  (List.range cisSignature.length).map (fun i => buffer (pos+i)) = cisSignature

def Probes (info : MtdInfo) : Prop := info.nandFlash ∧ (info.writesize = smSectorSize ∨ info.writesize = smSmallPage)

instance (info : MtdInfo) : Decidable (Probes info) := inferInstanceAs (Decidable (_ ∧ _))

def probeSmartMedia (info : MtdInfo) (dev : Device) (results : ℕ → Option ℕ) (p : Probe) : Option Outcome :=
  if Probes info then
    (probeLoop dev results (limit info) info.writesize (limit info+1) 0 0 p).map fun r =>
      { found := r.1, printed := r.1 && (hasSignature r.2.buffer 0 || hasSignature r.2.buffer smSmallPage), probe := r.2 }
  else some { found := false, probe := p }

/-- The iteration takes place: the loop comes to it and no read before it was whole. -/
def Iterates (info : MtdInfo) (results : ℕ → Option ℕ) (k : ℕ) : Prop :=
  Probes info ∧ k*info.writesize < limit info ∧ ∀ j < k, results j ≠ some smSectorSize

def posAt (results : ℕ → Option ℕ) (k : ℕ) : ℕ := ((List.range k).map fun j => (results j).getD 0).sum

variable {dev : Device} {results : ℕ → Option ℕ} {info : MtdInfo} {p : Probe} {k n : ℕ}

/-- The signature is found in a copy of a sector where the sector has it. -/
theorem hasSignature_copy {buffer bytes : Memory} {pos q : ℕ} (h : ∀ i < smSectorSize, buffer i = bytes (pos+i))
    (hq : q+cisSignature.length ≤ smSectorSize) : hasSignature buffer q = hasSignature bytes (pos+q) := by
  have hcopy : (List.range cisSignature.length).map (fun i => buffer (q+i)) =
      (List.range cisSignature.length).map fun i => bytes (pos+q+i) := by
    refine List.map_congr_left fun i hi => ?_
    rw [List.mem_range] at hi
    rw [h (q+i) (by omega),Nat.add_assoc]
  rw [hasSignature,hasSignature,hcopy]

theorem posAt_succ (results : ℕ → Option ℕ) (k : ℕ) : posAt results (k+1) = posAt results k+(results k).getD 0 := by
  rw [posAt,posAt,List.range_succ,List.map_append,List.sum_append]
  rfl

/-- The seek goes to the begin in the first round and fails in every other. -/
theorem lseek_pos (hsize : 2 < info.writesize) (hpos : 0 < k → p.pos = posAt results k) :
    p.lseek dev seekSet (k*info.writesize) = { p with pos := posAt results k } := by
  cases k with
  | zero =>
    rw [Nat.zero_mul]
    rfl
  | succ k =>
    have hlarge : info.writesize ≤ (k+1)*info.writesize := Nat.le_mul_of_pos_left _ (Nat.succ_pos k)
    rw [Probe.lseek,if_neg (by omega),if_neg (by omega),if_neg (by omega),← hpos (Nat.succ_pos k)]

theorem Iterates.mono {j : ℕ} (h : Iterates info results k) (hj : j ≤ k) : Iterates info results j :=
  ⟨h.1,(Nat.mul_le_mul_right _ hj).trans_lt h.2.1,fun i hi => h.2.2 i (hi.trans_le hj)⟩

/-- The reads of the loop: one for each iteration, from where the reads before it ended. -/
theorem probeLoop_spec (dev : Device) (results : ℕ → Option ℕ) (hprobes : Probes info) (hsize : 2 < info.writesize) (hk : ∀ j < k, Iterates info results j)
    (hnone : ∀ j < k, results j ≠ some smSectorSize) (hreads : p.reads = (List.range k).map (posAt results))
    (hpos : 0 < k → p.pos = posAt results k) (hn : limit info < k*info.writesize+n) (hpositive : 0 < n) :
    ∃ found p' N, probeLoop dev results (limit info) info.writesize n k (k*info.writesize) p = some (found,p') ∧
      p'.reads = (List.range N).map (posAt results) ∧ (∀ j, j < N ↔ Iterates info results j) ∧
      (found = true → ∃ j, Iterates info results j ∧ results j = some smSectorSize ∧
        ∀ i < smSectorSize, p'.buffer i = dev.bytes (posAt results j+i)) := by
  induction n generalizing k p with
  | zero => exact absurd hpositive (Nat.lt_irrefl 0)
  | succ n ih =>
    rw [probeLoop]
    by_cases hlt : k*info.writesize < limit info
    · rw [if_pos hlt,lseek_pos hsize hpos]
      have hiter : Iterates info results k := ⟨hprobes,hlt,hnone⟩
      have hreads' : (({ p with pos := posAt results k } : Probe).read dev (results k)).reads =
          (List.range (k+1)).map (posAt results) := by
        rw [Probe.read,hreads,List.range_succ,List.map_append,List.map_singleton]
      by_cases hfull : results k = some smSectorSize
      · dsimp only
        rw [if_pos hfull]
        refine ⟨true,_,k+1,rfl,hreads',fun j => ⟨fun hj => hiter.mono (Nat.le_of_lt_succ hj),fun hj => ?_⟩,fun _ =>
          ⟨k,hiter,hfull,fun i hi => ?_⟩⟩
        · by_contra hge
          exact hj.2.2 k (Nat.lt_of_not_le fun hle => hge (Nat.lt_succ_of_le hle)) hfull
        · rw [Probe.read,hfull]
          exact if_pos hi
      · dsimp only
        rw [if_neg hfull]
        have hoffset : k*info.writesize+info.writesize = (k+1)*info.writesize := (Nat.succ_mul _ _).symm
        rw [hoffset]
        refine ih (fun j hj => hiter.mono (Nat.le_of_lt_succ hj)) (fun j hj => ?_) hreads' (fun _ => ?_) (by omega) (by omega)
        · rcases Nat.lt_succ_iff_lt_or_eq.mp hj with hj | rfl
          · exact hnone j hj
          · exact hfull
        · exact (posAt_succ results k).symm
    · rw [if_neg hlt]
      refine ⟨false,p,k,rfl,hreads,fun j => ⟨hk j,fun hj => ?_⟩,fun h => absurd h Bool.false_ne_true⟩
      by_contra hge
      exact hlt ((Nat.mul_le_mul_right _ (Nat.le_of_not_lt hge)).trans_lt hj.2.1)

/-- Every read begins at its sector, and the block that is looked at is the first one that could be read: its
signature is what the message depends on. -/
def ReadsSectors (info : MtdInfo) (dev : Device) (results : ℕ → Option ℕ) (o : Outcome) : Prop :=
  (∀ k pos, o.probe.reads[k]? = some pos → pos = k*info.writesize) ∧
  (o.found = true → ∃ k, Iterates info results k ∧ results k = some smSectorSize ∧
    (∀ i < smSectorSize, o.probe.buffer i = dev.bytes (k*info.writesize+i)) ∧
    o.printed = (hasSignature dev.bytes (k*info.writesize) || hasSignature dev.bytes (k*info.writesize+smSmallPage)))

/-- The reads are at their sectors if and only if each read before the last one returned the bytes of one page. -/
theorem posAt_aligned (hsize : 0 < info.writesize) : (∀ k, Iterates info results k → posAt results k = k*info.writesize) ↔
    ∀ k, Iterates info results (k+1) → results k = some info.writesize := by
  constructor
  · intro h k hk
    have hnext := h (k+1) hk
    rw [posAt_succ,h k (hk.mono (Nat.le_succ k)),Nat.succ_mul] at hnext
    cases hr : results k with
    | none =>
      rw [hr] at hnext
      exact absurd (Nat.add_left_cancel hnext) hsize.ne
    | some r =>
      rw [hr] at hnext
      exact congrArg some (Nat.add_left_cancel hnext)
  · intro h k hk
    induction k with
    | zero => exact (Nat.zero_mul _).symm
    | succ k ih => rw [posAt_succ,ih (hk.mono (Nat.le_succ k)),h k hk,Nat.succ_mul,Option.getD_some]

/-- The probe ends; its reads begin at their sectors if and only if each read that another one follows returned
exactly one page. -/
theorem probe_smart_media_reads (info : MtdInfo) (dev : Device) (results : ℕ → Option ℕ) (pos : ℕ) (junk : Memory) :
    ∃ o, probeSmartMedia info dev results { pos := pos, buffer := junk } = some o ∧
      (ReadsSectors info dev results o ↔ ∀ k, Iterates info results (k+1) → results k = some info.writesize) := by
  by_cases hprobes : Probes info
  · have hsize : 2 < info.writesize := by
      rcases hprobes.2 with h | h
      · rw [h]
        decide
      · rw [h]
        decide
    obtain ⟨found,p',N,hloop,hreads,hN,hfound⟩ := probeLoop_spec dev results (k := 0)
      (p := { pos := pos, buffer := junk }) (n := limit info+1) hprobes hsize nofun nofun rfl nofun (by omega) (Nat.succ_pos _)
    rw [Nat.zero_mul] at hloop
    rw [probeSmartMedia,if_pos hprobes,hloop,Option.map_some]
    refine ⟨_,rfl,?_⟩
    rw [← posAt_aligned (by omega)]
    have hread : ∀ k q, p'.reads[k]? = some q ↔ Iterates info results k ∧ posAt results k = q := by
      intro k q
      rw [hreads,← hN,List.getElem?_map]
      by_cases hlt : k < N
      · rw [List.getElem?_range hlt,Option.map_some,Option.some_inj,and_iff_right hlt]
      · rw [List.getElem?_eq_none (by rw [List.length_range]; exact Nat.le_of_not_lt hlt)]
        exact iff_of_false nofun fun h => hlt h.1
    constructor
    · exact fun h k hk => h.1 k _ ((hread k _).mpr ⟨hk,rfl⟩)
    · refine fun h => ⟨fun k q hq => ?_,fun hf => ?_⟩
      · obtain ⟨hk,rfl⟩ := (hread k q).mp hq
        exact h k hk
      · obtain ⟨k,hk,hfull,hbuffer⟩ := hfound hf
        rw [h k hk] at hbuffer
        refine ⟨k,hk,hfull,hbuffer,?_⟩
        have hfirst := hasSignature_copy hbuffer (q := 0) (by decide)
        have hpage := hasSignature_copy hbuffer (q := smSmallPage) (by decide)
        dsimp only at hf ⊢
        rw [hf,Bool.true_and,hfirst,hpage,Nat.add_zero]
  · rw [probeSmartMedia,if_neg hprobes]
    exact ⟨_,rfl,iff_of_true ⟨nofun,nofun⟩ fun k hk => absurd hk.1 hprobes⟩

def failingCard : MtdInfo := { nandFlash := true, writesize := 512, erasesize := 8192, size := 4*1024*1024, small := by decide }

def secondReadable : ℕ → Option ℕ
  | 0 => none
  | _ => some 512

/-- The second read begins at 0 too. -/
theorem probe_smart_media_reads_again : ¬∀ (info : MtdInfo) (dev : Device) (results : ℕ → Option ℕ) (pos : ℕ) (junk : Memory),
    ∃ o, probeSmartMedia info dev results { pos := pos, buffer := junk } = some o ∧ ReadsSectors info dev results o := by
  intro h
  obtain ⟨o,ho,haligned,-⟩ := h failingCard ⟨fun _ => 0,0⟩ secondReadable 0 fun _ => 0
  have hreads : (probeSmartMedia failingCard ⟨fun _ => 0,0⟩ secondReadable { pos := 0, buffer := fun _ => 0 }).map
      (·.probe.reads) = some [0,0] := by decide +kernel
  rw [ho] at hreads
  have hlist : o.probe.reads = [0,0] := Option.some.inj hreads
  have htwo : o.probe.reads[1]? = some 0 := by
    rw [hlist]
    rfl
  exact absurd (haligned 1 0 htwo) (by decide)

end SmartMedia
end Udev
