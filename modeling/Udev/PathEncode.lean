import Udev.Memory
import Udev.Symlinks

/-! `path_encode` on the memory of its destination. Its size is only counted down. The encoded
name of a link is copied behind the directory of all links, where it may be cut off. -/
namespace Udev
namespace DevPath

open CString Memory Text

/-- The destination, and the size that is counted down. -/
structure Encoder where
  dst : Cursor
  size : UInt64

/-- The loop of `path_encode`. -/
def encodeLoop : CString → Encoder → Encoder
  | [], e => e
  | c::cs, e =>
    if c = chr '/' ∨ c = chr '\\' then encodeLoop cs ⟨(charEncode c).foldl Cursor.put e.dst,e.size-4⟩
    else encodeLoop cs ⟨e.dst.put c,e.size-1⟩

/-- `path_encode` with any memory at its destination, and what it returns. -/
def pathEncodeRun (mem : Memory) (src : CString) (size : UInt64) : Cursor × UInt64 :=
  let e := encodeLoop src ⟨Cursor.start mem,size⟩
  (e.dst.put 0,size-e.size)

def weight (c : UInt8) : ℕ := if c = chr '/' ∨ c = chr '\\' then 4 else 1

def encodedLength (s : CString) : ℕ := (s.map weight).sum

def encodedText (mem : Memory) (src : CString) (size : UInt64) : CString :=
  (pathEncodeRun mem src size).1.mem.text size.toNat

def hexDigit (c : UInt8) : Option UInt8 :=
  if isdigit c then some (c-chr '0')
  else if chr 'a' ≤ c ∧ c ≤ chr 'f' then some (c-chr 'a'+10)
  else none

def escapeAt (s : CString) : Option UInt8 :=
  if charAt s 0 = chr '\\' ∧ charAt s 1 = chr 'x' then
    (hexDigit (charAt s 2)).bind fun h => (hexDigit (charAt s 3)).map fun l => h*16+l
  else none

/-- Each `\\xHH` is replaced by its byte; the first argument counts the bytes that are passed over. -/
def decode : ℕ → CString → CString
  | _, [] => []
  | n+1, _::cs => decode n cs
  | 0, c::cs =>
    match escapeAt (c::cs) with
    | some b => b::decode 3 cs
    | none => c::decode 0 cs

/-- The bytes that the encodings of two strings have in common at their begin. -/
def shared : CString → CString → ℕ
  | x::a, y::b =>
    if x = y then weight x+shared a b
    else if (x = chr '/' ∨ x = chr '\\') ∧ (y = chr '/' ∨ y = chr '\\') then 2
    else 0
  | _, _ => 0

/-- `dirname` in `link_update`, of the part of the link behind `/dev`. -/
def linkDirname (mem : Memory) (a : CString) : CString :=
  strscpyl utilPathSize [str "/run/udev/links/",encodedText mem a 1024]

/-- What the encoding of a string promises: there is no slash in it, it is decoded to the string, and its
length is returned. -/
def EncodesTo (mem : Memory) (size : UInt64) (s : CString) : Prop :=
  chr '/' ∉ encodedText mem s size ∧ decode 0 (encodedText mem s size) = s ∧
    (pathEncodeRun mem s size).2.toNat = (encodedText mem s size).length

/-- In every buffer that both encodings fit, they are one to one. -/
def OneToOne (a b : CString) : Prop :=
  ∀ (mem : Memory) (size : UInt64), encodedLength a < size.toNat → encodedLength b < size.toNat →
    (encodedText mem a size = encodedText mem b size → a = b) ∧ EncodesTo mem size a ∧ EncodesTo mem size b

variable {a b s : CString} {mem : Memory} {size : UInt64} {e : Encoder}

theorem pathEncode_length (s : CString) : (pathEncode s).length = encodedLength s := by
  induction s with
  | nil => rfl
  | cons c cs ih =>
    rw [pathEncode,List.length_append,ih,encodedLength,encodedLength,List.map_cons,List.sum_cons,weight]
    split_ifs <;> rfl

theorem encodeLoop_filled (src : CString) (h : e.dst.Filled mem s) :
    (encodeLoop src e).dst.Filled mem (s ++ pathEncode src) := by
  induction src generalizing e s with
  | nil =>
    rw [pathEncode,List.append_nil]
    exact h
  | cons c cs ih =>
    rw [pathEncode,encodeLoop,← List.append_assoc]
    by_cases hc : c = chr '/' ∨ c = chr '\\'
    · rw [if_pos hc,if_pos hc]
      exact ih (h.puts (charEncode c))
    · rw [if_neg hc,if_neg hc]
      exact ih (h.put c)

theorem encodeLoop_size (e : Encoder) (src : CString) (h : encodedLength src ≤ e.size.toNat) :
    (encodeLoop src e).size.toNat = e.size.toNat-encodedLength src := by
  induction src generalizing e with
  | nil => rfl
  | cons c cs ih =>
    have hlen : encodedLength (c::cs) = weight c+encodedLength cs := by
      rw [encodedLength,List.map_cons,List.sum_cons]
      rfl
    rw [hlen] at h ⊢
    rw [encodeLoop]
    unfold weight at h ⊢
    by_cases hc : c = chr '/' ∨ c = chr '\\'
    · rw [if_pos hc] at h ⊢
      rw [if_pos hc]
      have hsub : (e.size-4).toNat = e.size.toNat-4 :=
        UInt64.toNat_sub_of_le _ _ (UInt64.le_iff_toNat_le.mpr (by show 4 ≤ _; omega))
      rw [ih _ (by show _ ≤ (e.size-4).toNat; omega)]
      show (e.size-4).toNat-_ = _
      omega
    · rw [if_neg hc] at h ⊢
      rw [if_neg hc]
      have hsub : (e.size-1).toNat = e.size.toNat-1 :=
        UInt64.toNat_sub_of_le _ _ (UInt64.le_iff_toNat_le.mpr (by show 1 ≤ _; omega))
      rw [ih _ (by show _ ≤ (e.size-1).toNat; omega)]
      show (e.size-1).toNat-_ = _
      omega

/-- The whole memory is written from its begin on, as far as the encoding and its terminator go. -/
theorem pathEncodeRun_spec (mem : Memory) (s : CString) (size : UInt64) :
    Holds (pathEncodeRun mem s size).1.mem (pathEncode s) ∧
      (pathEncodeRun mem s size).1.mem (pathEncode s).length = 0 ∧
      (pathEncodeRun mem s size).1.writes = List.range (encodedLength s+1) := by
  have hloop := encodeLoop_filled s (e := ⟨Cursor.start mem,size⟩) (Cursor.filled_start mem)
  rw [← pathEncode_length]
  exact hloop.terminate

theorem nul_pathEncode (h : 0 ∉ s) : 0 ∉ pathEncode s := by
  induction s with
  | nil => exact List.not_mem_nil
  | cons c cs ih =>
    rw [List.mem_cons,not_or] at h
    rw [pathEncode,List.mem_append,not_or]
    constructor
    · split_ifs with hc
      · rcases hc with rfl | rfl <;> decide
      · rw [List.mem_singleton]
        exact h.1
    · exact ih h.2

theorem slash_pathEncode (s : CString) : chr '/' ∉ pathEncode s := by
  induction s with
  | nil => exact List.not_mem_nil
  | cons c cs ih =>
    rw [pathEncode,List.mem_append,not_or]
    constructor
    · split_ifs with hc
      · rcases hc with rfl | rfl <;> decide
      · rw [List.mem_singleton]
        exact fun heq => hc (Or.inl heq.symm)
    · exact ih

theorem encodedText_eq (hnul : 0 ∉ s) (mem : Memory) (hfit : encodedLength s < size.toNat) :
    encodedText mem s size = pathEncode s := by
  obtain ⟨hmem,hend,-⟩ := pathEncodeRun_spec mem s size
  exact hmem.text hend (nul_pathEncode hnul) (by rwa [pathEncode_length])

theorem pathEncodeRun_length (mem : Memory) (hfit : encodedLength s < size.toNat) :
    (pathEncodeRun mem s size).2.toNat = encodedLength s := by
  have hsize := encodeLoop_size ⟨Cursor.start mem,size⟩ s (Nat.le_of_lt hfit)
  have hle : (encodeLoop s ⟨Cursor.start mem,size⟩).size ≤ size := by
    rw [UInt64.le_iff_toNat_le,hsize]
    exact Nat.sub_le ..
  show (size-(encodeLoop s ⟨Cursor.start mem,size⟩).size).toNat = _
  rw [UInt64.toNat_sub_of_le _ _ hle,hsize]
  show size.toNat-(size.toNat-_) = _
  omega

theorem escapeAt_plain {c : UInt8} (hc : c ≠ chr '\\') (t : CString) : escapeAt (c::t) = none :=
  if_neg fun h => hc h.1

theorem escapeAt_charEncode (c : UInt8) (t : CString) : escapeAt (charEncode c ++ t) = some c := by
  have hdigits : ∀ c : UInt8, (hexDigit (charHex (c >>> 4))).bind
      (fun h => (hexDigit (charHex (c &&& 0xf))).map fun l => h*16+l) = some c := forall_byte (by decide +kernel)
  rw [escapeAt,if_pos ⟨rfl,rfl⟩]
  exact hdigits c

theorem decode_plain {p : CString} (h : chr '\\' ∉ p) (t : CString) : decode 0 (p ++ t) = p ++ decode 0 t := by
  induction p with
  | nil => rfl
  | cons c p ih =>
    rw [List.mem_cons,not_or] at h
    have hplain : escapeAt (c::(p ++ t)) = none := escapeAt_plain (Ne.symm h.1) _
    rw [List.cons_append,decode,hplain]
    exact congrArg (List.cons c) (ih h.2)

theorem decode_charEncode (c : UInt8) (t : CString) : decode 0 (charEncode c ++ t) = c::decode 0 t := by
  have hat := escapeAt_charEncode c t
  simp only [charEncode,List.cons_append,List.nil_append] at hat ⊢
  rw [decode,hat]
  rfl

/-- The encoding is decoded to the string, whatever the string looks like. -/
theorem decode_pathEncode (s : CString) : decode 0 (pathEncode s) = s := by
  induction s with
  | nil => rfl
  | cons c cs ih =>
    rw [pathEncode]
    split_ifs with hc
    · rw [decode_charEncode,ih]
    · have hplain : chr '\\' ∉ [c] := fun h => hc (Or.inr (List.mem_singleton.mp h).symm)
      rw [decode_plain hplain,ih,List.singleton_append]

theorem encodesTo (hnul : 0 ∉ s) (mem : Memory) (hfit : encodedLength s < size.toNat) : EncodesTo mem size s := by
  rw [EncodesTo,encodedText_eq hnul mem hfit,pathEncodeRun_length mem hfit,pathEncode_length]
  exact ⟨slash_pathEncode s,decode_pathEncode s,rfl⟩

theorem oneToOne (ha : 0 ∉ a) (hb : 0 ∉ b) : OneToOne a b := by
  intro mem size hfita hfitb
  refine ⟨?_,encodesTo ha mem hfita,encodesTo hb mem hfitb⟩
  intro h
  rw [encodedText_eq ha mem hfita,encodedText_eq hb mem hfitb] at h
  exact pathEncode_injective h

theorem take_differ {p x y : CString} {u v : UInt8} (huv : u ≠ v) (n : ℕ) :
    (p ++ u::x).take n = (p ++ v::y).take n ↔ n ≤ p.length := by
  constructor
  · intro h
    by_contra hlt
    obtain ⟨k,rfl⟩ := Nat.exists_eq_add_of_lt (Nat.lt_of_not_le hlt)
    have hk : p.length+k+1-p.length = k+1 := by omega
    rw [List.take_append,List.take_append,hk,List.take_succ_cons,List.take_succ_cons] at h
    exact huv (List.cons.inj (List.append_cancel_left h)).1
  · intro h
    rw [List.take_append_of_le_length h,List.take_append_of_le_length h]

theorem take_append_iff {w x y : CString} (n : ℕ) :
    (w ++ x).take n = (w ++ y).take n ↔ x.take (n-w.length) = y.take (n-w.length) := by
  rw [List.take_append,List.take_append]
  exact List.append_right_inj _

theorem encode_head (c : UInt8) (t : CString) : ∃ u x, pathEncode (c::t) = u::x ∧
    (c = chr '/' ∨ c = chr '\\' → u = chr '\\') ∧ (¬(c = chr '/' ∨ c = chr '\\') → u = c) := by
  rw [pathEncode]
  split_ifs with hc
  · exact ⟨_,_,rfl,fun _ => rfl,fun h => absurd hc h⟩
  · exact ⟨_,_,rfl,fun h => absurd h hc,fun _ => rfl⟩

theorem take_pathEncode_iff (a b : CString) (n : ℕ) :
    (pathEncode a).take n = (pathEncode b).take n ↔ a = b ∨ n ≤ shared a b := by
  induction a generalizing b n with
  | nil =>
    cases b with
    | nil => exact iff_of_true rfl (Or.inl rfl)
    | cons y b =>
      obtain ⟨u,x,henc,-⟩ := encode_head y b
      rw [henc,pathEncode]
      cases n with
      | zero => exact iff_of_true rfl (Or.inr (Nat.le_refl 0))
      | succ n => exact iff_of_false (by simp) (by simp [shared])
  | cons x a ih =>
    cases b with
    | nil =>
      obtain ⟨u,z,henc,-⟩ := encode_head x a
      rw [henc,pathEncode]
      cases n with
      | zero => exact iff_of_true rfl (Or.inr (Nat.le_refl 0))
      | succ n => exact iff_of_false (by simp) (by simp [shared])
    | cons y b =>
      rw [shared]
      by_cases hxy : x = y
      · subst hxy
        have hlen : (if x = chr '/' ∨ x = chr '\\' then charEncode x else [x]).length = weight x := by
          unfold weight
          split_ifs <;> rfl
        rw [if_pos rfl,pathEncode,pathEncode,take_append_iff,ih,hlen]
        refine or_congr ⟨congrArg _,fun h => (List.cons.inj h).2⟩ ?_
        omega
      · have hne : x::a ≠ y::b := fun h => hxy (List.cons.inj h).1
        rw [if_neg hxy,or_iff_right hne]
        by_cases hboth : (x = chr '/' ∨ x = chr '\\') ∧ (y = chr '/' ∨ y = chr '\\')
        · rw [if_pos hboth,pathEncode,pathEncode,if_pos hboth.1,if_pos hboth.2]
          obtain ⟨hx,hy⟩ := hboth
          have hslash (t : CString) : charEncode (chr '/') ++ t = str "\\x" ++ chr '2'::(chr 'f'::t) := rfl
          have hback (t : CString) : charEncode (chr '\\') ++ t = str "\\x" ++ chr '5'::(chr 'c'::t) := rfl
          rcases hx with rfl | rfl <;> rcases hy with rfl | rfl
          · exact absurd rfl hxy
          · rw [hslash,hback,take_differ (by decide)]
            rfl
          · rw [hslash,hback,take_differ (by decide)]
            rfl
          · exact absurd rfl hxy
        · obtain ⟨u,x',hx,hxe,hxp⟩ := encode_head x a
          obtain ⟨v,y',hy,hye,hyp⟩ := encode_head y b
          have huv : u ≠ v := by
            by_cases hxesc : x = chr '/' ∨ x = chr '\\'
            · have hyplain : ¬(y = chr '/' ∨ y = chr '\\') := fun h => hboth ⟨hxesc,h⟩
              rw [hxe hxesc,hyp hyplain]
              exact fun h => hyplain (Or.inr h.symm)
            · rw [hxp hxesc]
              by_cases hyesc : y = chr '/' ∨ y = chr '\\'
              · rw [hye hyesc]
                exact fun h => hxesc (Or.inr h)
              · rwa [hyp hyesc]
          have hdiff := take_differ (p := []) (x := x') (y := y') huv n
          rw [if_neg hboth,hx,hy]
          exact hdiff

theorem linkDirname_eq (mem : Memory) (ha : 0 ∉ a) (hfit : encodedLength a < 1024) :
    linkDirname mem a = str "/run/udev/links/" ++ (pathEncode a).take 1007 := by
  have hrun : (str "/run/udev/links/").length = 16 := rfl
  have hfit : encodedLength a < (1024 : UInt64).toNat := hfit
  rw [linkDirname,encodedText_eq ha mem hfit,strscpyl_take,List.flatten_cons,List.flatten_singleton,List.take_append,
    hrun,List.take_of_length_le (by rw [hrun]; decide)]
  rfl

theorem linkDirname_linkDir (mem : Memory) (ha : 0 ∉ a) (hfit : encodedLength a < 1024) :
    linkDirname mem a = Symlinks.linkDir (str "/dev" ++ a) := by
  have hfit : encodedLength a < (1024 : UInt64).toNat := hfit
  rw [linkDirname,encodedText_eq ha mem hfit]
  rfl

/-- For encodings that fit the name of a link: each promises what it is for, and two links never share a
directory, exactly when the encodings of different links differ within 1007 bytes. -/
theorem path_encode_links_iff (ha : 0 ∉ a) (hb : 0 ∉ b) (hfita : encodedLength a < 1024)
    (hfitb : encodedLength b < 1024) (mem : Memory) :
    OneToOne a b ∧ (a ≠ b → linkDirname mem a ≠ linkDirname mem b) ↔ a = b ∨ shared a b < 1007 := by
  rw [and_iff_right (oneToOne ha hb),linkDirname_eq mem ha hfita,linkDirname_eq mem hb hfitb]
  by_cases heq : a = b
  · exact iff_of_true (fun hne => absurd heq hne) (Or.inl heq)
  · have hsame : str "/run/udev/links/" ++ (pathEncode a).take 1007 = str "/run/udev/links/" ++ (pathEncode b).take 1007 ↔
        1007 ≤ shared a b := by
      rw [List.append_right_inj,take_pathEncode_iff,or_iff_right heq]
    rw [or_iff_right heq]
    constructor
    · intro h
      exact Nat.lt_of_not_le fun hle => h heq (hsame.mpr hle)
    · intro h _ hdir
      exact absurd (hsame.mp hdir) (Nat.not_le_of_lt h)

theorem path_encode_links_iff_disks :
    OneToOne (str "/disk/a") (str "/disk/b") ∧ (str "/disk/a" ≠ str "/disk/b" →
      linkDirname (fun _ => 0) (str "/disk/a") ≠ linkDirname (fun _ => 0) (str "/disk/b")) ↔
      str "/disk/a" = str "/disk/b" ∨ shared (str "/disk/a") (str "/disk/b") < 1007 :=
  path_encode_links_iff (by decide) (by decide) (by decide) (by decide) fun _ => 0

theorem encodedLength_append (s t : CString) : encodedLength (s ++ t) = encodedLength s+encodedLength t := by
  rw [encodedLength,List.map_append,List.sum_append]
  rfl

theorem encodedLength_replicate (n : ℕ) : encodedLength (List.replicate n (chr 'a')) = n := by
  have hone : weight (chr 'a') = 1 := by decide
  rw [encodedLength,List.map_replicate,hone,List.sum_replicate_nat,Nat.mul_one]

theorem encode_replicate (n : ℕ) (t : CString) :
    pathEncode (List.replicate n (chr 'a') ++ t) = List.replicate n (chr 'a') ++ pathEncode t := by
  induction n with
  | zero => rfl
  | succ n ih =>
    have hplain : ¬(chr 'a' = chr '/' ∨ chr 'a' = chr '\\') := by decide
    rw [List.replicate_succ,List.cons_append,pathEncode,if_neg hplain,ih,List.cons_append]
    rfl

/-- Two links of 1005 letters below `/dev` with another one at their end share their directory. -/
theorem links_share_directory : ∃ a b : CString, a ≠ b ∧ encodedLength a < 1024 ∧ encodedLength b < 1024 ∧
    linkDirname (fun _ => 0) a = linkDirname (fun _ => 0) b := by
  have hnul (c : UInt8) (hc : 0 ≠ c) : 0 ∉ chr '/'::(List.replicate 1005 (chr 'a') ++ [c]) := by
    intro hmem
    rcases List.mem_cons.mp hmem with h | hmem
    · exact absurd h (by decide)
    · rcases List.mem_append.mp hmem with h | h
      · exact absurd (List.eq_of_mem_replicate h) (by decide)
      · exact hc (List.mem_singleton.mp h)
  have hlen (c : UInt8) (hc : weight c = 1) :
      encodedLength (chr '/'::(List.replicate 1005 (chr 'a') ++ [c])) = 1010 := by
    have h := encodedLength_append [chr '/'] (List.replicate 1005 (chr 'a') ++ [c])
    have hslash : encodedLength [chr '/'] = 4 := by decide
    have hlast : encodedLength [c] = 1 := hc
    rw [List.singleton_append] at h
    rw [h,encodedLength_append,encodedLength_replicate,hslash,hlast]
  have hdir (c : UInt8) : (pathEncode (chr '/'::(List.replicate 1005 (chr 'a') ++ [c]))).take 1007 =
      charEncode (chr '/') ++ List.replicate 1003 (chr 'a') := by
    rw [pathEncode,if_pos (Or.inl rfl),encode_replicate,List.take_append]
    have h4 : (charEncode (chr '/')).length = 4 := rfl
    rw [h4,List.take_of_length_le (by rw [h4]; decide),List.take_append_of_le_length (by rw [List.length_replicate]; decide),
      List.take_replicate]
    rfl
  refine ⟨chr '/'::(List.replicate 1005 (chr 'a') ++ [chr 'b']),chr '/'::(List.replicate 1005 (chr 'a') ++ [chr 'c']),
    ?_,?_,?_,?_⟩
  · intro h
    have hlast := List.append_cancel_left (List.cons.inj h).2
    exact absurd hlast (by decide)
  · rw [hlen _ (by decide)]
    decide
  · rw [hlen _ (by decide)]
    decide
  · rw [linkDirname_eq _ (hnul _ (by decide)) (by rw [hlen _ (by decide)]; decide),
      linkDirname_eq _ (hnul _ (by decide)) (by rw [hlen _ (by decide)]; decide),hdir,hdir]

end DevPath
end Udev
