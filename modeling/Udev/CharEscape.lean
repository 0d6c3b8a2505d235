import Udev.CheckedBuffer
import Udev.Memory
import Udev.StaticNodes

/-! The escapes of C strings: `cescape` with letters and octal digits, `xescape` with hexadecimal
digits, and `cunescape`, which undoes both. A read behind the terminator gives `none`. -/
namespace Udev
namespace CharEscape

open CString CheckedBuffer Memory Rules

def octchar (x : ℕ) : UInt8 := chr '0' + UInt8.ofNat (x % 8)

def unhexchar (c : UInt8) : Option ℕ :=
  if c ≥ chr '0' ∧ c ≤ chr '9' then some (c-chr '0').toNat
  else if c ≥ chr 'a' ∧ c ≤ chr 'f' then some ((c-chr 'a').toNat+10)
  else if c ≥ chr 'A' ∧ c ≤ chr 'F' then some ((c-chr 'A').toNat+10)
  else none

def unoctchar (c : UInt8) : Option ℕ :=
  if c ≥ chr '0' ∧ c ≤ chr '7' then some (c-chr '0').toNat else none

def letters : List (UInt8 × UInt8) :=
  [(7,chr 'a'),(8,chr 'b'),(12,chr 'f'),(10,chr 'n'),(13,chr 'r'),(9,chr 't'),(11,chr 'v'),
    (chr '\\',chr '\\'),(chr '"',chr '"'),(chr '\'',chr '\'')]

/-- What `cescape` writes for a byte; a `char` is signed, so the bytes from 128 on are below the space. -/
def cescapeChar (c : UInt8) : CString :=
  match letters.lookup c with
  | some l => [chr '\\',l]
  | none =>
    if c ≥ 128 ∨ c < chr ' ' ∨ c ≥ 127 then
      [chr '\\',octchar (c.toNat/64),octchar (c.toNat/8),octchar c.toNat]
    else [c]

def cescape (s : CString) : CString := s.flatMap cescapeChar

/-- The letter behind a backslash in `cunescape`; a space has one too. -/
def unescapeLetter (l : UInt8) : Option UInt8 :=
  (letters.find? (·.2 = l)).elim (if l = chr 's' then some (chr ' ') else none) fun p => some p.1

/-- The loop of `cunescape_length_with_prefix` from `f` on: what it writes. -/
def unescapeLoop (buf : List UInt8) (length : ℕ) : ℕ → ℕ → Option CString
  | 0, _ => none
  | n+1, f =>
    if f < length then
      (get buf f).bind fun c =>
        if c ≠ chr '\\' then (unescapeLoop buf length n (f+1)).map ([c] ++ ·)
        else (get buf (f+1)).bind fun l =>
          match unescapeLetter l with
          | some c => (unescapeLoop buf length n (f+2)).map ([c] ++ ·)
          | none =>
            if l = chr 'x' then
              (get buf (f+2)).bind fun x => (get buf (f+3)).bind fun y =>
                match unhexchar x, unhexchar y with
                | some a, some b => (unescapeLoop buf length n (f+4)).map ([UInt8.ofNat (a*16+b)] ++ ·)
                | _, _ => (unescapeLoop buf length n (f+2)).map ([chr '\\',chr 'x'] ++ ·)
            else if l ≥ chr '0' ∧ l ≤ chr '7' then
              (get buf (f+2)).bind fun x => (get buf (f+3)).bind fun y =>
                match unoctchar l, unoctchar x, unoctchar y with
                | some a, some b, some c => (unescapeLoop buf length n (f+4)).map ([UInt8.ofNat (a*64+b*8+c)] ++ ·)
                | _, _, _ => (unescapeLoop buf length n (f+2)).map ([chr '\\',l] ++ ·)
            else if l = 0 then some [chr '\\']
            else (unescapeLoop buf length n (f+2)).map ([chr '\\',l] ++ ·)
    else some []

def cunescape (s : CString) : Option CString := unescapeLoop (s ++ [0]) s.length (s.length+1) 0

example : cunescape (str "a\\tb\\x41\\1012\\s\\q\\") = some (str "a\tbAA2 \\q\\") := by decide

example : cescape [chr 'a',10,0xc3,chr '1'] = str "a\\n\\3031" := by decide

/-- `cunescape` takes the bytes for one byte wherever they stand. -/
def Decodes (e : CString) (c : UInt8) : Prop :=
  e ≠ [] ∧ ∀ (p t : List UInt8) (length n : ℕ), (p ++ e).length ≤ length →
    unescapeLoop (p ++ e ++ t) length (n+1) p.length =
      (unescapeLoop (p ++ e ++ t) length n (p ++ e).length).map ([c] ++ ·)

section Decodes

variable {c l x y : UInt8} {a b d : ℕ}

theorem get_behind {e : List UInt8} {i : ℕ} (h : e[i]? = some c) (p t : List UInt8) :
    get (p ++ e ++ t) (p.length+i) = some c := by
  have hi : i < e.length := (List.getElem?_eq_some_iff.mp h).1
  rw [CheckedBuffer.get,List.append_assoc,List.getElem?_append_right (Nat.le_add_right _ _),Nat.add_sub_cancel_left,
    List.getElem?_append_left hi,h]

theorem decodes_char (hc : c ≠ chr '\\') : Decodes [c] c := by
  refine ⟨List.cons_ne_nil _ _,fun p t length n hlen => ?_⟩
  rw [List.length_append,List.length_singleton] at hlen ⊢
  have h₀ : get (p ++ [c] ++ t) p.length = some c := get_behind (i := 0) rfl p t
  rw [unescapeLoop,if_pos (by omega),h₀,Option.bind_some,if_pos hc]

theorem decodes_letter (hl : unescapeLetter l = some c) : Decodes [chr '\\',l] c := by
  refine ⟨List.cons_ne_nil _ _,fun p t length n hlen => ?_⟩
  have hp : (p ++ [chr '\\',l]).length = p.length+2 := by simp
  rw [hp] at hlen ⊢
  have h₀ : get (p ++ [chr '\\',l] ++ t) p.length = some (chr '\\') := get_behind (i := 0) rfl p t
  have h₁ : get (p ++ [chr '\\',l] ++ t) (p.length+1) = some l := get_behind rfl p t
  rw [unescapeLoop,if_pos (by omega),h₀,Option.bind_some,if_neg (not_not.mpr rfl),h₁,Option.bind_some,hl]

theorem decodes_hex (hx : unhexchar x = some a) (hy : unhexchar y = some b) :
    Decodes [chr '\\',chr 'x',x,y] (UInt8.ofNat (a*16+b)) := by
  refine ⟨List.cons_ne_nil _ _,fun p t length n hlen => ?_⟩
  have hp : (p ++ [chr '\\',chr 'x',x,y]).length = p.length+4 := by simp
  rw [hp] at hlen ⊢
  have h₀ : get (p ++ [chr '\\',chr 'x',x,y] ++ t) p.length = some (chr '\\') := get_behind (i := 0) rfl p t
  have h₁ : get (p ++ [chr '\\',chr 'x',x,y] ++ t) (p.length+1) = some (chr 'x') := get_behind rfl p t
  have h₂ : get (p ++ [chr '\\',chr 'x',x,y] ++ t) (p.length+2) = some x := get_behind rfl p t
  have h₃ : get (p ++ [chr '\\',chr 'x',x,y] ++ t) (p.length+3) = some y := get_behind rfl p t
  have hletter : unescapeLetter (chr 'x') = none := by decide
  rw [unescapeLoop,if_pos (by omega),h₀,Option.bind_some,if_neg (not_not.mpr rfl),h₁,Option.bind_some,hletter]
  dsimp only
  rw [if_pos rfl,h₂,Option.bind_some,h₃,Option.bind_some,hx,hy]

theorem octal_letter (l : UInt8) (hl : l ≥ chr '0' ∧ l ≤ chr '7') : unescapeLetter l = none ∧ l ≠ chr 'x' := by
  have hall : ∀ i : Fin 8, unescapeLetter (UInt8.ofNat (48+i)) = none ∧ UInt8.ofNat (48+i) ≠ chr 'x' := by decide
  have hge : 48 ≤ l.toNat := UInt8.le_iff_toNat_le.mp hl.1
  have hle : l.toNat ≤ 55 := UInt8.le_iff_toNat_le.mp hl.2
  have hdigit : UInt8.ofNat (48+(l.toNat-48)) = l := by rw [Nat.add_sub_cancel' hge,UInt8.ofNat_toNat]
  exact hdigit ▸ hall ⟨l.toNat-48,by omega⟩

theorem decodes_octal (hl : unoctchar l = some a) (hx : unoctchar x = some b) (hy : unoctchar y = some d) :
    Decodes [chr '\\',l,x,y] (UInt8.ofNat (a*64+b*8+d)) := by
  refine ⟨List.cons_ne_nil _ _,fun p t length n hlen => ?_⟩
  have hp : (p ++ [chr '\\',l,x,y]).length = p.length+4 := by simp
  rw [hp] at hlen ⊢
  have h₀ : get (p ++ [chr '\\',l,x,y] ++ t) p.length = some (chr '\\') := get_behind (i := 0) rfl p t
  have h₁ : get (p ++ [chr '\\',l,x,y] ++ t) (p.length+1) = some l := get_behind rfl p t
  have h₂ : get (p ++ [chr '\\',l,x,y] ++ t) (p.length+2) = some x := get_behind rfl p t
  have h₃ : get (p ++ [chr '\\',l,x,y] ++ t) (p.length+3) = some y := get_behind rfl p t
  have hdigit : l ≥ chr '0' ∧ l ≤ chr '7' := by
    by_contra hnot
    rw [unoctchar,if_neg hnot] at hl
    cases hl
  obtain ⟨hletter,hne⟩ := octal_letter l hdigit
  rw [unescapeLoop,if_pos (by omega),h₀,Option.bind_some,if_neg (not_not.mpr rfl),h₁,Option.bind_some,hletter]
  dsimp only
  rw [if_neg hne,if_pos hdigit,h₂,Option.bind_some,h₃,Option.bind_some,hl,hx,hy]

theorem unhexchar_hexchar (x : ℕ) : unhexchar (hexchar x) = some (x % 16) := by
  have hall : ∀ r < 16, unhexchar (charAt (str "0123456789abcdef") r) = some r := by decide
  exact hall _ (Nat.mod_lt _ (by decide))

theorem unoctchar_octchar (x : ℕ) : unoctchar (octchar x) = some (x % 8) := by
  have hall : ∀ r < 8, unoctchar (chr '0' + UInt8.ofNat r) = some r := by decide
  exact hall _ (Nat.mod_lt _ (by decide))

theorem letters_known : ∀ p ∈ letters, unescapeLetter p.2 = some p.1 ∧ p.2 ≠ 0 := by
  have hall : (letters.all fun p => decide (unescapeLetter p.2 = some p.1 ∧ p.2 ≠ 0)) = true := by decide
  exact fun p hp => of_decide_eq_true (List.all_eq_true.mp hall p hp)

theorem mem_letters {c l : UInt8} (h : letters.lookup c = some l) : (c,l) ∈ letters := by
  obtain ⟨l₁,l₂,heq,-⟩ := List.lookup_eq_some_iff.mp h
  exact heq ▸ by simp

theorem unescapeLetter_lookup (c l : UInt8) (hl : l ∈ letters.lookup c) : unescapeLetter l = some c :=
  (letters_known _ (mem_letters hl)).1

theorem decodes_cescapeChar (c : UInt8) : Decodes (cescapeChar c) c := by
  rw [cescapeChar]
  cases hletter : letters.lookup c with
  | some l => exact decodes_letter (unescapeLetter_lookup c l hletter)
  | none =>
    by_cases hspecial : c ≥ 128 ∨ c < chr ' ' ∨ c ≥ 127
    · have hbyte : c.toNat < 256 := c.toNat_lt
      have hvalue : UInt8.ofNat (c.toNat/64%8*64+c.toNat/8%8*8+c.toNat%8) = c := by
        rw [show c.toNat/64%8*64+c.toNat/8%8*8+c.toNat%8 = c.toNat by omega,UInt8.ofNat_toNat]
      have hoct := decodes_octal (unoctchar_octchar (c.toNat/64)) (unoctchar_octchar (c.toNat/8))
        (unoctchar_octchar c.toNat)
      rw [hvalue] at hoct
      dsimp only
      rwa [if_pos hspecial]
    · dsimp only
      rw [if_neg hspecial]
      refine decodes_char ?_
      rintro rfl
      exact absurd hletter (by decide)

/-- What `xescape` writes for a byte. -/
def xescapeChar (bad : CString) (c : UInt8) : CString :=
  if c < chr ' ' ∨ c ≥ 127 ∨ c = chr '\\' ∨ (strchr bad c).isSome then
    [chr '\\',chr 'x',hexchar (c.toNat/16),hexchar c.toNat]
  else [c]

theorem decodes_xescapeChar (bad : CString) (c : UInt8) : Decodes (xescapeChar bad c) c := by
  rw [xescapeChar]
  by_cases hbad : c < chr ' ' ∨ c ≥ 127 ∨ c = chr '\\' ∨ (strchr bad c).isSome
  · have hbyte : c.toNat < 256 := c.toNat_lt
    have hvalue : UInt8.ofNat (c.toNat/16%16*16+c.toNat%16) = c := by
      rw [show c.toNat/16%16*16+c.toNat%16 = c.toNat by omega,UInt8.ofNat_toNat]
    have hhex := decodes_hex (unhexchar_hexchar (c.toNat/16)) (unhexchar_hexchar c.toNat)
    rw [hvalue] at hhex
    rwa [if_pos hbad]
  · rw [if_neg hbad]
    exact decodes_char fun hc => hbad (Or.inr (Or.inr (Or.inl hc)))

/-- A text of which each byte is decoded is decoded, whatever is behind an escape. -/
theorem unescapeLoop_flatMap {g : UInt8 → CString} (hg : ∀ c, Decodes (g c) c) (s p : CString) {n : ℕ} (hn : s.length < n) :
    unescapeLoop (p ++ s.flatMap g ++ [0]) (p ++ s.flatMap g).length n p.length = some s := by
  induction s generalizing p n with
  | nil =>
    obtain ⟨n,rfl⟩ := Nat.exists_eq_succ_of_ne_zero (Nat.ne_of_gt hn)
    rw [unescapeLoop,if_neg]
    rw [List.flatMap_nil,List.append_nil]
    exact Nat.lt_irrefl _
  | cons c s ih =>
    obtain ⟨n,rfl⟩ := Nat.exists_eq_succ_of_ne_zero (by omega : n ≠ 0)
    have hrest := ih (p ++ g c) (n := n) (Nat.lt_of_succ_lt_succ hn)
    have hle : (p ++ g c).length ≤ (p ++ g c ++ s.flatMap g).length := by
      rw [@List.length_append _ (p ++ g c)]
      exact Nat.le_add_right _ _
    have hstep := (hg c).2 p (s.flatMap g ++ [0]) _ n hle
    rw [← List.append_assoc] at hstep
    rw [List.flatMap_cons,← List.append_assoc,hstep,hrest]
    rfl

theorem length_le_flatMap {g : UInt8 → CString} (hg : ∀ c, Decodes (g c) c) (s : CString) :
    s.length ≤ (s.flatMap g).length := by
  induction s with
  | nil => exact Nat.zero_le _
  | cons c s ih =>
    have hpos : 0 < (g c).length := List.length_pos_of_ne_nil (hg c).1
    rw [List.flatMap_cons,List.length_append,List.length_cons]
    omega

theorem cunescape_flatMap {g : UInt8 → CString} (hg : ∀ c, Decodes (g c) c) (s : CString) :
    cunescape (s.flatMap g) = some s :=
  unescapeLoop_flatMap hg s [] (Nat.lt_succ_of_le (length_le_flatMap hg s))

end Decodes

def IsHex (c : UInt8) : Prop := (chr '0' ≤ c ∧ c ≤ chr '9') ∨ (chr 'a' ≤ c ∧ c ≤ chr 'f')

instance (c : UInt8) : Decidable (IsHex c) := inferInstanceAs (Decidable (_ ∨ _))

theorem isHex_hexchar (x : ℕ) : IsHex (hexchar x) := by
  have hall : ∀ r < 16, IsHex (charAt (str "0123456789abcdef") r) := by decide
  exact hall _ (Nat.mod_lt _ (by decide))

theorem octchar_ne_zero (x : ℕ) : octchar x ≠ 0 := by
  have hall : ∀ r < 8, chr '0' + UInt8.ofNat r ≠ 0 := by decide
  exact hall _ (Nat.mod_lt _ (by decide))

theorem cescapeChar_bytes (c : UInt8) : (cescapeChar c).length ≤ 4 ∧ (0 ∈ cescapeChar c → c = 0) := by
  unfold cescapeChar
  split
  next l hl =>
    have hback : chr '\\' ≠ 0 := by decide
    simp [hback.symm,(letters_known _ (mem_letters hl)).2.symm]
  next =>
    split_ifs
    · have hback : chr '\\' ≠ 0 := by decide
      simp [hback.symm,(octchar_ne_zero _).symm]
    · simp [eq_comm]

theorem xescapeChar_length (bad : CString) (c : UInt8) : (xescapeChar bad c).length ≤ 4 := by
  rw [xescapeChar]
  split_ifs
  · exact le_rfl
  · exact (by decide : 1 ≤ 4)

/-- A byte of what `xescape` writes belongs to an escape or was not to be escaped. -/
theorem mem_xescapeChar {bad : CString} {c d : UInt8} (h : d ∈ xescapeChar bad c) :
    (d = chr '\\' ∨ d = chr 'x' ∨ IsHex d) ∨ d = c ∧ c ∉ bad := by
  rw [xescapeChar] at h
  by_cases hbad : c < chr ' ' ∨ c ≥ 127 ∨ c = chr '\\' ∨ (strchr bad c).isSome
  · rw [if_pos hbad] at h
    simp only [List.mem_cons,List.not_mem_nil,or_false] at h
    rcases h with h | h | rfl | rfl
    · exact Or.inl (Or.inl h)
    · exact Or.inl (Or.inr (Or.inl h))
    · exact Or.inl (Or.inr (Or.inr (isHex_hexchar _)))
    · exact Or.inl (Or.inr (Or.inr (isHex_hexchar _)))
  · rw [if_neg hbad] at h
    exact Or.inr ⟨List.mem_singleton.mp h,fun hmem => hbad (Or.inr (Or.inr (Or.inr (strchr_isSome.mpr hmem))))⟩

theorem flatMap_room {g : UInt8 → CString} (hg : ∀ c, (g c).length ≤ 4) (s : CString) :
    (s.flatMap g).length+1 ≤ 4*s.length+1 := by
  induction s with
  | nil => exact le_rfl
  | cons c s ih =>
    have := hg c
    rw [List.flatMap_cons,List.length_append,List.length_cons]
    omega

/-- Both escapes are undone, fit the memory that is allocated for them, and hide the bad bytes. -/
theorem escapes_round_trip (s bad : CString) (hs : 0 ∉ s) :
    cunescape (xescape s bad) = some s ∧ cunescape (cescape s) = some s ∧
    0 ∉ xescape s bad ∧ 0 ∉ cescape s ∧
    (xescape s bad).length+1 ≤ 4*s.length+1 ∧ (cescape s).length+1 ≤ 4*s.length+1 ∧
    ∀ c ∈ bad, c ≠ chr '\\' → c ≠ chr 'x' → ¬IsHex c → c ∉ xescape s bad := by
  refine ⟨cunescape_flatMap (decodes_xescapeChar bad) s,cunescape_flatMap decodes_cescapeChar s,fun h => ?_,fun h => ?_,
    flatMap_room (xescapeChar_length bad) s,flatMap_room (fun c => (cescapeChar_bytes c).1) s,fun d hd hback hx hhex h => ?_⟩
  · obtain ⟨c,hc,hmem⟩ := List.mem_flatMap.mp h
    rcases mem_xescapeChar hmem with h | ⟨rfl,-⟩
    · exact absurd h (by decide)
    · exact hs hc
  · obtain ⟨c,hc,hmem⟩ := List.mem_flatMap.mp h
    exact hs ((cescapeChar_bytes c).2 hmem ▸ hc)
  · obtain ⟨c,-,hmem⟩ := List.mem_flatMap.mp h
    rcases mem_xescapeChar hmem with (h | h | h) | ⟨rfl,hnot⟩
    · exact hback h
    · exact hx h
    · exact hhex h
    · exact hnot hd

/-- A byte that is negative as a `char` before a digit, and a slash that is to be escaped. -/
theorem escapes_round_trip_negative :
    cunescape (xescape [0xc3,chr '1',chr '/'] (str "/")) = some [0xc3,chr '1',chr '/'] ∧
    cunescape (cescape [0xc3,chr '1',chr '/']) = some [0xc3,chr '1',chr '/'] ∧
    0 ∉ xescape [0xc3,chr '1',chr '/'] (str "/") ∧ 0 ∉ cescape [0xc3,chr '1',chr '/'] ∧
    (xescape [0xc3,chr '1',chr '/'] (str "/")).length+1 ≤ 4*3+1 ∧ (cescape [0xc3,chr '1',chr '/']).length+1 ≤ 4*3+1 ∧
    ∀ c ∈ str "/", c ≠ chr '\\' → c ≠ chr 'x' → ¬IsHex c → c ∉ xescape [0xc3,chr '1',chr '/'] (str "/") :=
  escapes_round_trip [0xc3,chr '1',chr '/'] (str "/") (by decide)

end CharEscape
end Udev
