import Udev.PathEncode

/-! The interfaces in the descriptors of a USB device. The walk goes by the lengths that the device
gives, and what was found before is looked up in the string that is made. -/
namespace Udev
namespace UsbInterfaces

open CString Memory Text DevPath

abbrev Triple := UInt8 × UInt8 × UInt8

/-- `%02x` -/
def hex2 (c : UInt8) : CString := [charHex (c >>> 4),charHex (c &&& 0xf)]

/-- `:%02x%02x%02x` -/
def ifStr (t : Triple) : CString := chr ':'::(hex2 t.1 ++ hex2 t.2.1 ++ hex2 t.2.2)

def bLength (buf : Memory) (pos : ℕ) : ℕ := (buf pos).toNat

/-- `USB_DT_INTERFACE` -/
def isInterface (buf : Memory) (pos : ℕ) : Bool := buf (pos+1) = 0x04

def triple (buf : Memory) (pos : ℕ) : Triple := (buf (pos+5),buf (pos+6),buf (pos+7))

/-- The string, its end, the places that were written, and the descriptors of which the class fields were read. -/
structure IfsState where
  ifs : Memory
  strpos : ℕ
  writes : List ℕ
  uses : List ℕ

def packedStep (buf : Memory) (len pos : ℕ) (st : IfsState) : IfsState :=
  if isInterface buf pos = false then st
  else
    let s := ifStr (triple buf pos)
    let st := { st with uses := st.uses ++ [pos] }
    if s.length ≠ 7 then st
    else if (strstr (st.ifs.text len) s).isSome then st
    else { st with
      ifs := st.ifs.store st.strpos s
      strpos := st.strpos+7
      writes := st.writes ++ List.range' st.strpos 8 }

def packedLoop (buf : Memory) (size len pos : ℕ) (st : IfsState) : IfsState :=
  if pos < size ∧ st.strpos+7 < len-2 then
    if bLength buf pos < 3 then st
    else packedLoop buf size len (pos+bLength buf pos) (packedStep buf len pos st)
  else st
termination_by size-pos

/-- `dev_if_packed_info` on what `read` returned; `none` is `-EIO`. -/
def devIfPackedInfo (buf ifs : Memory) (size len : ℕ) : Option IfsState :=
  if size < 18 ∨ size = 18+65535 then none
  else
    let st := packedLoop buf size len 0 ⟨Function.update ifs 0 0,0,[0],[]⟩
    if 0 < st.strpos then some { st with
      ifs := st.ifs.store st.strpos (str ":")
      strpos := st.strpos+2
      writes := st.writes ++ [st.strpos,st.strpos+1] }
    else some st

/-- The places of the descriptors, by their lengths. -/
def walk (buf : Memory) (size pos : ℕ) : List ℕ :=
  if pos < size then
    if bLength buf pos < 3 then [] else pos::walk buf size (pos+bLength buf pos)
  else []
termination_by size-pos

/-- The descriptor lies inside of the bytes that were read, and its class fields lie inside of it. -/
def Good (buf : Memory) (size pos : ℕ) : Prop := pos+bLength buf pos ≤ size ∧ 8 ≤ bLength buf pos

instance (buf : Memory) (size : ℕ) : DecidablePred (Good buf size) := fun _ => inferInstanceAs (Decidable (_ ∧ _))

/-- The distinct triples of some interface descriptors, in order of first occurrence. -/
def distinct (buf : Memory) (places : List ℕ) : List Triple := ((places.filter (isInterface buf)).map (triple buf)).eraseDups

def packed (ts : List Triple) : CString := if ts = [] then [] else (ts.map ifStr).flatten ++ str ":"

/-- Only good descriptors are used, nothing is written behind the buffer, and the string has the distinct triples
of the good descriptors. With 72 triples it has 506 bytes with its terminator, and another one does not fit. -/
structure PackedRight (buf : Memory) (size : ℕ) (st : IfsState) : Prop where
  uses : ∀ pos ∈ st.uses, Good buf size pos
  inside : ∀ i ∈ st.writes, i < utilNameSize
  text : st.ifs.text utilNameSize = packed ((distinct buf ((walk buf size 0).filter (Good buf size))).take 72)
  terminated : st.ifs (st.ifs.text utilNameSize).length = 0

/-- Each interface descriptor in front of which there are less than 72 triples is good. -/
def InterfacesFit (buf : Memory) (size : ℕ) : Prop :=
  ∀ before pos, before ++ [pos] <+: walk buf size 0 → isInterface buf pos →
    (distinct buf before).length < 72 → Good buf size pos

theorem hex2_chars : ∀ c, chr ':' ∉ hex2 c ∧ 0 ∉ hex2 c := forall_byte (by decide +kernel)

theorem hex2_injective {c d : UInt8} (h : hex2 c = hex2 d) : c = d := by
  have hdecode : ∀ c, (hexDigit (charAt (hex2 c) 0)).bind (fun h => (hexDigit (charAt (hex2 c) 1)).map fun l => h*16+l) = some c :=
    forall_byte (by decide +kernel)
  have hc := hdecode c
  rw [h,hdecode d] at hc
  exact (Option.some.inj hc).symm

theorem ifStr_length (t : Triple) : (ifStr t).length = 7 := rfl

theorem ifStr_injective {t u : Triple} (h : ifStr t = ifStr u) : t = u := by
  have hrest := (List.cons.inj h).2
  have hlast := List.append_inj hrest rfl
  have hfirst := List.append_inj hlast.1 rfl
  exact Prod.ext (hex2_injective hfirst.1) (Prod.ext (hex2_injective hfirst.2) (hex2_injective hlast.2))

theorem ifStr_tail (t : Triple) : chr ':' ∉ hex2 t.1 ++ hex2 t.2.1 ++ hex2 t.2.2 := by
  intro h
  rcases List.mem_append.mp h with h | h
  · rcases List.mem_append.mp h with h | h
    · exact (hex2_chars _).1 h
    · exact (hex2_chars _).1 h
  · exact (hex2_chars _).1 h

theorem nul_ifStr (t : Triple) : 0 ∉ ifStr t := by
  intro h
  rcases List.mem_cons.mp h with h | h
  · exact absurd h (by decide)
  rcases List.mem_append.mp h with h | h
  · rcases List.mem_append.mp h with h | h
    · exact (hex2_chars _).2 h
    · exact (hex2_chars _).2 h
  · exact (hex2_chars _).2 h

theorem infix_behind {s h rest : CString} (hh : chr ':' ∉ h) : chr ':'::s <:+: h ++ rest ↔ chr ':'::s <:+: rest := by
  induction h with
  | nil => exact Iff.rfl
  | cons c h ih =>
    have hne : chr ':' ≠ c := fun h => hh (h ▸ List.mem_cons_self)
    rw [List.cons_append,List.infix_cons_iff,ih (fun h => hh (List.mem_cons_of_mem _ h)),or_iff_right]
    rintro ⟨t,ht⟩
    exact hne (List.cons.inj ht).1

theorem ifStr_infix_iff (t : Triple) (ts : List Triple) : ifStr t <:+: (ts.map ifStr).flatten ↔ t ∈ ts := by
  induction ts with
  | nil =>
    refine iff_of_false ?_ List.not_mem_nil
    rintro ⟨a,b,h⟩
    exact List.append_ne_nil_of_left_ne_nil (List.append_ne_nil_of_right_ne_nil a (List.cons_ne_nil _ _)) b h
  | cons u ts ih =>
    have hbehind : ifStr t <:+: hex2 u.1 ++ hex2 u.2.1 ++ hex2 u.2.2 ++ (ts.map ifStr).flatten ↔ t ∈ ts :=
      (infix_behind (ifStr_tail u)).trans ih
    have hflat : ((u::ts).map ifStr).flatten =
        chr ':'::(hex2 u.1 ++ hex2 u.2.1 ++ hex2 u.2.2 ++ (ts.map ifStr).flatten) := rfl
    rw [hflat,List.infix_cons_iff,hbehind,List.mem_cons]
    refine or_congr ?_ Iff.rfl
    constructor
    · rintro ⟨rest,h⟩
      have happ : ifStr t ++ rest = ifStr u ++ (ts.map ifStr).flatten := h
      exact ifStr_injective (List.append_inj happ rfl).1
    · rintro rfl
      exact List.prefix_append _ _

theorem length_flatten (ts : List Triple) : ((ts.map ifStr).flatten).length = 7*ts.length := by
  induction ts with
  | nil => rfl
  | cons t ts ih =>
    rw [List.map_cons,List.flatten_cons,List.length_append,ifStr_length,ih,List.length_cons]
    omega

theorem nul_flatten (ts : List Triple) : 0 ∉ (ts.map ifStr).flatten := by
  intro h
  obtain ⟨s,hs,hnul⟩ := List.mem_flatten.mp h
  obtain ⟨t,-,rfl⟩ := List.mem_map.mp hs
  exact nul_ifStr t hnul

theorem eraseDups_snoc (ts : List Triple) (t : Triple) :
    (ts ++ [t]).eraseDups = if t ∈ ts.eraseDups then ts.eraseDups else ts.eraseDups ++ [t] := by
  rw [List.eraseDups_append]
  by_cases h : t ∈ ts
  · rw [if_pos (List.mem_eraseDups.mpr h)]
    simp [List.removeAll,h]
  · rw [if_neg (mt List.mem_eraseDups.mp h)]
    simp [List.removeAll,h,List.eraseDups_cons]

theorem distinct_interface {buf : Memory} {pos : ℕ} (h : isInterface buf pos = true) (before : List ℕ) :
    distinct buf (before ++ [pos]) =
      if triple buf pos ∈ distinct buf before then distinct buf before else distinct buf before ++ [triple buf pos] := by
  rw [distinct,List.filter_append,List.filter_cons_of_pos h,List.map_append]
  exact eraseDups_snoc _ _

theorem distinct_other {buf : Memory} {pos : ℕ} (h : isInterface buf pos = false) (before : List ℕ) :
    distinct buf (before ++ [pos]) = distinct buf before := by
  rw [distinct,List.filter_append,List.filter_cons_of_neg (by rw [h]; decide),List.filter_nil,List.append_nil]
  rfl

theorem distinct_append (buf : Memory) (before after : List ℕ) :
    ∃ rest, distinct buf (before ++ after) = distinct buf before ++ rest := by
  rw [distinct,List.filter_append,List.map_append,List.eraseDups_append]
  exact ⟨_,rfl⟩

/-- The string holds the distinct triples of the descriptors that were passed, and each of them was passed while
there was room. -/
structure Packed (buf : Memory) (before : List ℕ) (st : IfsState) : Prop where
  holds : st.ifs.Holds ((distinct buf before).map ifStr).flatten
  ends : st.ifs st.strpos = 0
  strpos : st.strpos = 7*(distinct buf before).length
  few : (distinct buf before).length ≤ 72
  writes : ∀ i ∈ st.writes, i < utilNameSize
  uses : st.uses = before.filter (isInterface buf)
  room : ∀ b p, b ++ [p] <+: before → (distinct buf b).length < 72

variable {buf : Memory} {before : List ℕ} {st : IfsState} {size pos : ℕ}

theorem Packed.text (h : Packed buf before st) : st.ifs.text utilNameSize = ((distinct buf before).map ifStr).flatten := by
  have hlen := length_flatten (distinct buf before)
  refine h.holds.text ?_ (nul_flatten _) ?_
  · rw [hlen,← h.strpos]
    exact h.ends
  · have hfew := h.few
    rw [hlen]
    show _ < 512
    omega

theorem Packed.found (h : Packed buf before st) (t : Triple) :
    (strstr (st.ifs.text utilNameSize) (ifStr t)).isSome ↔ t ∈ distinct buf before := by
  rw [strstr_isSome,h.text,ifStr_infix_iff]

theorem room_snoc (hroom : ∀ b p, b ++ [p] <+: before → (distinct buf b).length < 72)
    (hlast : (distinct buf before).length < 72) (b : List ℕ) (p : ℕ) (h : b ++ [p] <+: before ++ [pos]) :
    (distinct buf b).length < 72 := by
  rcases List.prefix_concat_iff.mp h with heq | hpre
  · rw [(List.append_inj' heq rfl).1]
    exact hlast
  · exact hroom b p hpre

theorem packedStep_packed (h : Packed buf before st) (hroom : (distinct buf before).length < 72) (pos : ℕ) :
    Packed buf (before ++ [pos]) (packedStep buf utilNameSize pos st) := by
  have hsnoc : ∀ b p, b ++ [p] <+: before ++ [pos] → (distinct buf b).length < 72 := room_snoc h.room hroom
  rw [packedStep]
  by_cases hother : isInterface buf pos = false
  · have hsame := distinct_other hother before
    have hfilter : (before ++ [pos]).filter (isInterface buf) = before.filter (isInterface buf) := by
      rw [List.filter_append,List.filter_cons_of_neg (by rw [hother]; decide),List.filter_nil,List.append_nil]
    rw [if_pos hother]
    refine ⟨?_,h.ends,?_,?_,h.writes,?_,hsnoc⟩
    · rw [hsame]
      exact h.holds
    · rw [hsame]
      exact h.strpos
    · rw [hsame]
      exact h.few
    · rw [hfilter]
      exact h.uses
  · have hinterface : isInterface buf pos = true := by
      rwa [Bool.not_eq_false] at hother
    have hnext := distinct_interface hinterface before
    have huses : st.uses ++ [pos] = (before ++ [pos]).filter (isInterface buf) := by
      rw [List.filter_append,List.filter_cons_of_pos hinterface,← h.uses]
      rfl
    rw [if_neg hother,if_neg (not_not.mpr (ifStr_length _))]
    by_cases hmem : triple buf pos ∈ distinct buf before
    · rw [if_pos hmem] at hnext
      rw [if_pos ((h.found _).mpr hmem)]
      refine ⟨?_,h.ends,?_,?_,h.writes,huses,hsnoc⟩
      · rw [hnext]
        exact h.holds
      · rw [hnext]
        exact h.strpos
      · rw [hnext]
        exact h.few
    · rw [if_neg hmem] at hnext
      rw [if_neg (mt (h.found _).mp hmem)]
      have hlen := length_flatten (distinct buf before)
      have hcount : (distinct buf (before ++ [pos])).length = (distinct buf before).length+1 := by
        rw [hnext,List.length_append,List.length_singleton]
      have hstrpos := h.strpos
      constructor
      · have hflat : ((distinct buf (before ++ [pos])).map ifStr).flatten =
            ((distinct buf before).map ifStr).flatten ++ ifStr (triple buf pos) := by
          rw [hnext,List.map_append,List.flatten_append]
          exact congrArg _ (List.flatten_singleton ..)
        rw [hflat,hstrpos,← hlen]
        exact h.holds.store _
      · exact store_end _ _ (ifStr (triple buf pos))
      · rw [hcount]
        show st.strpos+7 = _
        omega
      · rw [hcount]
        omega
      · intro i hi
        rcases List.mem_append.mp hi with hi | hi
        · exact h.writes i hi
        · have hlt : i < st.strpos+8 := (List.mem_range'_1.mp hi).2
          show i < 512
          omega
      · exact huses
      · exact hsnoc

theorem packedLoop_packed (size pos : ℕ) (before : List ℕ) (st : IfsState) (h : Packed buf before st) :
    ∃ done rest, before ++ walk buf size pos = done ++ rest ∧ Packed buf done (packedLoop buf size utilNameSize pos st) ∧
      (rest = [] ∨ (distinct buf done).length = 72) := by
  have hstrpos := h.strpos
  have hfew := h.few
  have hroom : st.strpos+7 < utilNameSize-2 ↔ (distinct buf before).length < 72 := by
    show st.strpos+7 < 512-2 ↔ _
    omega
  rw [packedLoop,walk]
  by_cases hpos : pos < size
  · rw [if_pos hpos]
    by_cases hfull : (distinct buf before).length < 72
    · have hboth : pos < size ∧ st.strpos+7 < utilNameSize-2 := ⟨hpos,hroom.mpr hfull⟩
      rw [if_pos hboth]
      by_cases hshort : bLength buf pos < 3
      · rw [if_pos hshort,if_pos hshort]
        exact ⟨before,[],rfl,h,Or.inl rfl⟩
      · rw [if_neg hshort,if_neg hshort]
        have hstep := packedStep_packed h hfull pos
        obtain ⟨done,rest,hwalk,hpacked,hend⟩ := packedLoop_packed size (pos+bLength buf pos) _ _ hstep
        rw [List.append_assoc,List.singleton_append] at hwalk
        exact ⟨done,rest,hwalk,hpacked,hend⟩
    · have hnot : ¬(pos < size ∧ st.strpos+7 < utilNameSize-2) := fun hboth => hfull (hroom.mp hboth.2)
      rw [if_neg hnot]
      exact ⟨before,_,rfl,h,Or.inr (by omega)⟩
  · have hnot : ¬(pos < size ∧ st.strpos+7 < utilNameSize-2) := fun hboth => hpos hboth.1
    rw [if_neg hpos,if_neg hnot]
    exact ⟨before,[],rfl,h,Or.inl rfl⟩
termination_by size-pos

/-- What is returned for the descriptors of the walk that were passed. -/
structure Result (buf : Memory) (size : ℕ) (done rest : List ℕ) (st : IfsState) : Prop where
  walk_eq : walk buf size 0 = done ++ rest
  ends : rest = [] ∨ (distinct buf done).length = 72
  few : (distinct buf done).length ≤ 72
  uses : st.uses = done.filter (isInterface buf)
  room : ∀ b p, b ++ [p] <+: done → (distinct buf b).length < 72
  inside : ∀ i ∈ st.writes, i < utilNameSize
  text : st.ifs.text utilNameSize = packed (distinct buf done)
  terminated : st.ifs (st.ifs.text utilNameSize).length = 0

theorem devIfPackedInfo_spec (buf ifs : Memory) (hlow : 18 ≤ size) (hhigh : size < 65553) :
    ∃ st done rest, devIfPackedInfo buf ifs size utilNameSize = some st ∧ Result buf size done rest st := by
  have hstart : Packed buf [] ⟨Function.update ifs 0 0,0,[0],[]⟩ := by
    refine ⟨holds_nil _,Function.update_self 0 0 ifs,rfl,Nat.zero_le _,?_,rfl,?_⟩
    · intro i hi
      rw [List.mem_singleton.mp hi]
      decide
    · intro b p h
      exact absurd (List.prefix_nil.mp h) (List.append_ne_nil_of_right_ne_nil _ (List.cons_ne_nil _ _))
  obtain ⟨done,rest,hwalk,h,hend⟩ := packedLoop_packed size 0 [] _ hstart
  have hsize : ¬(size < 18 ∨ size = 18+65535) := by omega
  rw [List.nil_append] at hwalk
  rw [devIfPackedInfo,if_neg hsize]
  have hstrpos := h.strpos
  have hfew := h.few
  by_cases hsome : 0 < (packedLoop buf size utilNameSize 0 ⟨Function.update ifs 0 0,0,[0],[]⟩).strpos
  · have hne : distinct buf done ≠ [] := by
      intro hnil
      rw [hnil] at hstrpos
      exact absurd hstrpos (Nat.ne_of_gt hsome)
    have hlen := length_flatten (distinct buf done)
    have hcolon : packed (distinct buf done) = ((distinct buf done).map ifStr).flatten ++ str ":" := if_neg hne
    have hpacked : (packed (distinct buf done)).length = 7*(distinct buf done).length+1 := by
      rw [hcolon,List.length_append,hlen]
      rfl
    have hholds := h.holds.store (str ":")
    have hnul := store_end (packedLoop buf size utilNameSize 0 ⟨Function.update ifs 0 0,0,[0],[]⟩).ifs
      ((distinct buf done).map ifStr).flatten.length (str ":")
    rw [← List.length_append,← hcolon] at hnul
    rw [← hcolon] at hholds
    have hzero : 0 ∉ packed (distinct buf done) := by
      rw [hcolon]
      intro hmem
      rcases List.mem_append.mp hmem with hmem | hmem
      · exact nul_flatten _ hmem
      · exact absurd hmem (by decide)
    have hshort : (packed (distinct buf done)).length < utilNameSize := by
      rw [hpacked]
      show _ < 512
      omega
    have htext := hholds.text hnul hzero hshort
    rw [hlen,← hstrpos] at htext hnul
    refine ⟨_,done,rest,if_pos hsome,⟨hwalk,hend,hfew,h.uses,h.room,?_,htext,?_⟩⟩
    · intro i hi
      rcases List.mem_append.mp hi with hi | hi
      · exact h.writes i hi
      · show i < 512
        rw [List.mem_cons,List.mem_singleton] at hi
        omega
    · show store _ _ _ (text (store _ _ _) _).length = 0
      rw [htext]
      exact hnul
  · have hnil : distinct buf done = [] := by
      rw [← List.length_eq_zero_iff]
      omega
    have htext := h.text
    refine ⟨_,done,rest,if_neg hsome,⟨hwalk,hend,hfew,h.uses,h.room,h.writes,?_,?_⟩⟩
    · rw [htext,hnil]
      rfl
    · rw [htext,length_flatten,← hstrpos]
      exact h.ends

theorem filter_good {done : List ℕ} (h : ∀ pos ∈ done, isInterface buf pos → Good buf size pos) :
    distinct buf (done.filter (Good buf size)) = distinct buf done := by
  rw [distinct,distinct,List.filter_filter]
  refine congrArg (fun places => (places.map (triple buf)).eraseDups) (List.filter_congr ?_)
  intro pos hpos
  cases hinterface : isInterface buf pos with
  | false => rfl
  | true => exact decide_eq_true (h pos hpos hinterface)

/-- The result is right exactly where each interface descriptor is good that comes while there is room. -/
theorem Result.right_iff {done rest : List ℕ} (h : Result buf size done rest st) :
    PackedRight buf size st ↔ InterfacesFit buf size := by
  have hsplit : ∀ pos ∈ done, ∃ b, b ++ [pos] <+: done := by
    intro pos hpos
    obtain ⟨b,a,hba⟩ := List.append_of_mem hpos
    refine ⟨b,a,?_⟩
    rw [hba,List.append_assoc]
    rfl
  constructor
  · intro hright b pos hpre hinterface hroom
    have hdone : b ++ [pos] <+: done := by
      rw [h.walk_eq] at hpre
      rcases h.ends with hrest | hfull
      · rwa [hrest,List.append_nil] at hpre
      · rcases List.prefix_or_prefix_of_prefix hpre (List.prefix_append done rest) with hin | hin
        · exact hin
        · rcases List.prefix_concat_iff.mp hin with heq | hin
          · exact heq ▸ List.prefix_refl _
          · obtain ⟨a,rfl⟩ := hin
            obtain ⟨later,hlater⟩ := distinct_append buf done a
            rw [hlater,List.length_append] at hroom
            omega
    refine hright.uses pos ?_
    rw [h.uses]
    exact List.mem_filter.mpr ⟨hdone.subset (List.mem_append_right _ (List.mem_singleton_self _)),hinterface⟩
  · intro hfit
    have hgood : ∀ pos ∈ done, isInterface buf pos → Good buf size pos := by
      intro pos hpos hinterface
      obtain ⟨b,hb⟩ := hsplit pos hpos
      refine hfit b pos ?_ hinterface (h.room b pos hb)
      rw [h.walk_eq]
      exact hb.trans (List.prefix_append _ _)
    refine ⟨?_,h.inside,?_,h.terminated⟩
    · intro pos hpos
      rw [h.uses] at hpos
      exact hgood pos (List.mem_of_mem_filter hpos) (List.mem_filter.mp hpos).2
    · rw [h.text,h.walk_eq,List.filter_append]
      rcases h.ends with hrest | hfull
      · rw [hrest,List.filter_nil,List.append_nil,filter_good hgood,List.take_of_length_le h.few]
      · obtain ⟨later,hlater⟩ := distinct_append buf (done.filter (Good buf size)) (rest.filter (Good buf size))
        rw [hlater,filter_good hgood,List.take_left' hfull]

/-- The summary of the interfaces is right exactly where each interface descriptor is good in front of which there
are less than 72 triples. -/
theorem packed_info_iff (buf ifs : Memory) (hlow : 18 ≤ size) (hhigh : size < 65553) :
    (∃ st, devIfPackedInfo buf ifs size utilNameSize = some st ∧ PackedRight buf size st) ↔ InterfacesFit buf size := by
  obtain ⟨st,done,rest,hst,h⟩ := devIfPackedInfo_spec buf ifs hlow hhigh
  rw [hst,← h.right_iff]
  constructor
  · rintro ⟨st',heq,hright⟩
    exact Option.some.inj heq ▸ hright
  · intro hright
    exact ⟨st,rfl,hright⟩

/-- The descriptors of a keyboard: its device, its configuration and an interface. -/
def keyboard : List UInt8 :=
  [18,1,0,2,0,0,0,8,0x5e,4,0x52,7,0,1,1,2,0,1,9,2,27,0,1,1,0,0xa0,50,9,4,0,0,1,3,1,1,0]

theorem packed_info_iff_keyboard :
    (∃ st, devIfPackedInfo (charAt keyboard) (fun _ => 0) 36 utilNameSize = some st ∧
      PackedRight (charAt keyboard) 36 st) ↔ InterfacesFit (charAt keyboard) 36 :=
  packed_info_iff (charAt keyboard) (fun _ => 0) (by decide) (by decide)

example : packed (distinct (charAt keyboard) (walk (charAt keyboard) 36 0)) = str ":030101:" := by decide +kernel

/-- The device alone, with an interface that is cut off behind its type. -/
def cutInterface : List UInt8 := [18,1,0,2,0,0,0,8,0x5e,4,0x52,7,0,1,1,2,0,1,9,4]

/-- Whatever the buffer had behind the bytes is taken for the class of the interface. -/
theorem packed_info_cut : ¬∃ st, devIfPackedInfo (charAt cutInterface) (fun _ => 0) 20 utilNameSize = some st ∧
    PackedRight (charAt cutInterface) 20 st := by
  rintro ⟨st,hst,hright⟩
  obtain ⟨st',done,rest,hst',h⟩ := devIfPackedInfo_spec (charAt cutInterface) (fun _ => 0) (show 18 ≤ 20 by decide) (by decide)
  obtain rfl : st = st' := Option.some.inj (hst.symm.trans hst')
  have hwalk : [0] ++ [18] <+: walk (charAt cutInterface) 20 0 := by decide +kernel
  have hgood := h.right_iff.mp hright [0] 18 hwalk (by decide) (by decide)
  exact absurd hgood (by decide)

end UsbInterfaces
end Udev
