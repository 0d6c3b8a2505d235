import Udev.CheckedBuffer
import Udev.AttrBuffer
import Udev.UniqueList

/-! `import_property_from_string` on the bytes of the line and its terminator, with every read and
write checked: what it accepts, what it sets, and that it stays inside the line. -/
namespace Udev
namespace Rules

open CString Text CheckedBuffer

/-- The property is set; it is stored in the database unless its key is private. -/
def addImported (d : Device) (key value : CString) : Device :=
  let d := d.setProperty key value
  if charAt key 0 ≠ chr '.' then d.markStored key else d

/-- The end of `import_property_from_string`: the property is read from the buffer. -/
def importAdd (d : Device) (buf : List UInt8) (key val : ℕ) : Option (Device × ℤ) := do
  let k ← stringAt buf key
  let v ← stringAt buf val
  return (addImported d k v,0)

/-- `import_property_from_string` from "unquote" on, for a value that ends at an index. -/
def importUnquote (d : Device) (buf : List UInt8) (key val e : ℕ) : Option (Device × ℤ) := do
  let quote ← get buf val
  if quote = chr '"' ∨ quote = chr '\'' then
    let last ← get buf (e-1)
    if last ≠ quote then
      -- the line is in the message about it
      let _ ← stringAt buf 0
      return (d,-1)
    let buf ← put buf (e-1) 0
    importAdd d buf key (val+1)
  else importAdd d buf key val

/-- `import_property_from_string` from "terminate value" on. -/
def importValue (d : Device) (buf : List UInt8) (key val : ℕ) : Option (Device × ℤ) := do
  let e ← scan (· ≠ 0) buf val
  if e = val then return (d,-1)
  let e ← trim isspace buf e
  let buf ← put buf e 0
  if e = val then return (d,-1)
  importUnquote d buf key val e

/-- `import_property_from_string` from the '=' that was found on. -/
def importPair (d : Device) (line : List UInt8) (key sep : ℕ) : Option (Device × ℤ) := do
  let line ← put line sep 0
  -- find value
  let val ← scan isspace line (sep+1)
  -- terminate key
  let e ← scan (· ≠ 0) line key
  if e = key then return (d,-1)
  let e ← trim isspace line e
  let line ← put line e 0
  importValue d line key val

/-- `import_property_from_string`, with a pointer as an index into the line. -/
def importPropertyFromString (d : Device) (line : List UInt8) : Option (Device × ℤ) := do
  -- find key
  let key ← scan isspace line 0
  let c ← get line key
  if c = chr '#' ∨ c = 0 then return (d,-1)
  -- split key/value
  let sep ← scan (fun c => c ≠ chr '=' && c ≠ 0) line key
  let c ← get line sep
  if c = 0 then return (d,-1)
  importPair d line key sep

def trimmed (s : CString) : CString := removeTrailing isspace (s.dropWhile isspace)

def keyPart (line : CString) : CString := trimmed (line.takeWhile (· ≠ chr '='))

def valuePart (line : CString) : CString := trimmed ((line.dropWhile (· ≠ chr '=')).drop 1)

def Quoted (s : CString) : Prop := s.head? = some (chr '"') ∨ s.head? = some (chr '\'')

instance (s : CString) : Decidable (Quoted s) := inferInstanceAs (Decidable (_ ∨ _))

def Importable (line : CString) : Prop :=
  (line.dropWhile isspace).head? ≠ some (chr '#') ∧ chr '=' ∈ line ∧ keyPart line ≠ [] ∧ valuePart line ≠ [] ∧
    (Quoted (valuePart line) → (valuePart line).getLast? = (valuePart line).head?)

instance (line : CString) : Decidable (Importable line) := inferInstanceAs (Decidable (_ ∧ _))

def importedValue (line : CString) : CString :=
  if Quoted (valuePart line) then ((valuePart line).drop 1).dropLast else valuePart line

variable {buf a b k v t w z : List UInt8} {key val : ℕ}

theorem importAdd_append (d : Device) (hkey : buf = a ++ (k ++ 0::z)) (hk : 0 ∉ k) (hval : buf = b ++ (v ++ 0::w))
    (hv : 0 ∉ v) : importAdd d buf a.length b.length = some (addImported d k v,0) := by
  rw [importAdd,stringAt_append hkey rfl hk,stringAt_append hval rfl hv]
  rfl

/-- Trailing white space is all of a string, or it comes behind another byte. -/
theorem removeTrailing_cases (s : CString) : (∀ x ∈ s, isspace x = true) ∧ removeTrailing isspace s = [] ∨
    ∃ u c w, s = u ++ c::w ∧ isspace c = false ∧ (∀ x ∈ w, isspace x = true) ∧
      removeTrailing isspace s = u ++ [c] := by
  induction s using List.reverseRecOn with
  | nil => exact Or.inl ⟨fun x hx => absurd hx List.not_mem_nil,rfl⟩
  | append_singleton s b ih =>
    rw [removeTrailing_concat]
    cases hb : isspace b with
    | false => exact Or.inr ⟨s,b,[],rfl,hb,fun x hx => absurd hx List.not_mem_nil,if_neg (by simp)⟩
    | true =>
      rw [if_pos rfl]
      rcases ih with ⟨hall,hnil⟩ | ⟨u,c,w,rfl,hc,hw,htrim⟩
      · left
        constructor
        · intro x hx
          rcases List.mem_append.mp hx with hx | hx
          · exact hall x hx
          · rw [List.mem_singleton.mp hx,hb]
        · exact hnil
      · refine Or.inr ⟨u,c,w ++ [b],by simp,hc,?_,htrim⟩
        intro x hx
        rcases List.mem_append.mp hx with hx | hx
        · exact hw x hx
        · rw [List.mem_singleton.mp hx,hb]

/-- What `importValue` gives for a value, by the value without trailing white space. -/
def valueResult (d : Device) (k t : CString) : Device × ℤ :=
  if t ≠ [] ∧ (Quoted t → t.getLast? = t.head?) then
    (addImported d k (if Quoted t then (t.drop 1).dropLast else t),0)
  else (d,-1)

theorem importUnquote_eq (d : Device) (hbuf : buf = a ++ (k ++ 0::(b ++ (t ++ 0::z)))) (ht : t ≠ []) (hk : 0 ∉ k)
    (h0 : 0 ∉ t) (hval : val = (a ++ (k ++ 0::b)).length) :
    importUnquote d buf a.length val (val+t.length) = some (valueResult d k t) := by
  obtain ⟨q,r,rfl⟩ := List.exists_cons_of_ne_nil ht
  have hquoted : Quoted (q::r) ↔ q = chr '"' ∨ q = chr '\'' := by simp [Quoted]
  have hget : get buf val = some q := get_append (z := r ++ 0::z) (by rw [hbuf]; simp) hval
  rw [importUnquote,hget]
  simp only [Option.bind_eq_bind,Option.bind_some]
  by_cases hq : Quoted (q::r)
  · rw [if_pos (hquoted.mp hq)]
    obtain ⟨m,l,hm⟩ : ∃ m l, q::r = m ++ [l] := (List.eq_nil_or_concat' (q::r)).resolve_left ht
    have hlen : (q::r).length = m.length+1 := by rw [hm,List.length_append,List.length_singleton]
    have hlast : get buf (val+(q::r).length-1) = some l :=
      get_append (a := a ++ (k ++ 0::b) ++ m) (z := 0::z) (by rw [hbuf,hm]; simp) (by rw [hlen,hval]; simp; omega)
    have hput : put buf (val+(q::r).length-1) 0 = some (a ++ (k ++ 0::b) ++ m ++ 0::0::z) :=
      put_append (c := l) (by rw [hbuf,hm]; simp) (by rw [hlen,hval]; simp; omega) 0
    have hsome : (q::r).getLast? = some l := by rw [hm,List.getLast?_append_of_ne_nil _ (by simp)]; rfl
    rw [hlast,Option.bind_some,hput,Option.bind_some,valueResult,hsome,List.head?_cons]
    by_cases hlq : l = q
    · rw [if_neg (not_not_intro hlq),if_pos ⟨ht,fun _ => congrArg some hlq⟩,if_pos hq]
      have hval' : ∃ w y, a ++ (k ++ 0::b) ++ m ++ 0::0::z = w ++ (((q::r).drop 1).dropLast ++ 0::y) ∧
          w.length = val+1 := by
        cases m with
        | nil =>
          obtain ⟨-,rfl⟩ := List.cons.inj hm
          exact ⟨a ++ (k ++ 0::b) ++ [0],z,by simp,by rw [hval]; simp; omega⟩
        | cons x m =>
          obtain ⟨rfl,rfl⟩ := List.cons.inj hm
          exact ⟨a ++ (k ++ 0::b) ++ [q],0::z,by simp,by rw [hval]; simp; omega⟩
      obtain ⟨w,y,hw,hwlen⟩ := hval'
      rw [← hwlen]
      refine importAdd_append d (z := b ++ (m ++ 0::0::z)) (by simp) hk hw ?_
      intro h
      exact h0 (List.mem_of_mem_drop (List.mem_of_mem_dropLast h))
    · rw [if_pos hlq,if_neg (fun h => hlq (Option.some.inj (h.2 hq)))]
      have hmem : 0 ∈ buf := by rw [hbuf]; simp
      obtain ⟨s,y,hs,hs0⟩ := List.eq_append_cons_of_mem hmem
      rw [stringAt_append (a := []) (i := 0) hs rfl hs0]
      rfl
  · rw [if_neg (mt hquoted.mpr hq),valueResult,if_pos ⟨ht,fun h => absurd h hq⟩,if_neg hq]
    subst hval
    exact importAdd_append d hbuf hk (z := b ++ (q::r ++ 0::z)) (b := a ++ (k ++ 0::b)) (w := z) (by rw [hbuf]; simp) h0

/-- The trimming of a string that is not blank, and the terminator behind it. -/
theorem trim_string (hbuf : buf = a ++ (v ++ 0::z)) (hv : ∃ x ∈ v, isspace x = false) :
    trim isspace buf (a.length+v.length) = some (a.length+(removeTrailing isspace v).length) ∧
    (∃ y, put buf (a.length+(removeTrailing isspace v).length) 0 = some (a ++ (removeTrailing isspace v ++ 0::(y ++ z)))) ∧
    removeTrailing isspace v ≠ [] ∧ removeTrailing isspace v ⊆ v := by
  rcases removeTrailing_cases v with ⟨hall,-⟩ | ⟨u,c,w,rfl,hc,hw,htrim⟩
  · obtain ⟨x,hx,hspace⟩ := hv
    rw [hall x hx] at hspace
    cases hspace
  · rw [htrim]
    refine ⟨?_,⟨(w ++ [0]).tail,?_⟩,by simp,?_⟩
    · have hat : buf = (a ++ u) ++ c::(w ++ 0::z) := by
        rw [hbuf]
        simp
      have hindex : a.length+(u ++ c::w).length = (a ++ u).length+1+w.length := by
        simp only [List.length_append,List.length_cons]
        omega
      rw [trim_append hat hindex hw hc,List.length_append,List.length_append,List.length_singleton,Nat.add_assoc]
    · cases w with
      | nil =>
        rw [put_append (a := a ++ (u ++ [c])) (c := 0) (z := z) (by rw [hbuf]; simp) (by simp)]
        simp
      | cons x w =>
        rw [put_append (a := a ++ (u ++ [c])) (c := x) (z := w ++ 0::z) (by rw [hbuf]; simp) (by simp)]
        simp
    · rw [List.append_cons u c w]
      exact List.subset_append_left _ _

theorem importValue_eq (d : Device) (hbuf : buf = a ++ (k ++ 0::(b ++ (v ++ [0])))) (hk : 0 ∉ k) (hv : 0 ∉ v)
    (hspace : v.dropWhile isspace = v) (hval : val = (a ++ (k ++ 0::b)).length) :
    importValue d buf a.length val = some (valueResult d k (removeTrailing isspace v)) := by
  have hbuf' : buf = (a ++ (k ++ 0::b)) ++ (v ++ 0::[]) := by rw [hbuf]; simp
  rw [importValue,scan_string hbuf' hval hv]
  simp only [Option.bind_eq_bind,Option.bind_some]
  cases hcase : v with
  | nil =>
    rw [List.length_nil,if_pos (Nat.add_zero _)]
    rfl
  | cons c r =>
    have hc : isspace c = false := by
      rw [hcase] at hspace
      have := List.head?_dropWhile_not isspace (c::r)
      rw [hspace] at this
      simpa using this
    obtain ⟨htrim,⟨y,hput⟩,hne,hsub⟩ := trim_string hbuf' ⟨c,by simp [hcase],hc⟩
    have hlen := List.length_pos_of_ne_nil hne
    rw [← hcase,if_neg (by rw [hcase]; simp),hval,htrim,Option.bind_some,hput,Option.bind_some,if_neg (by omega)]
    exact importUnquote_eq d (z := y ++ []) (by simp) hne hk (fun h0 => hv (hsub h0)) rfl

theorem importPair_eq (d : Device) {ws : List UInt8} {c : UInt8} (hbuf : buf = ws ++ (k ++ c::(v ++ [0]))) (hk : 0 ∉ k)
    (hv : 0 ∉ v) (hspace : k.dropWhile isspace = k) :
    importPair d buf ws.length (ws.length+k.length) =
      some (if removeTrailing isspace k ≠ [] then valueResult d (removeTrailing isspace k) (trimmed v) else (d,-1)) := by
  have hws : ∀ x ∈ v.takeWhile isspace, isspace x = true := fun x hx => List.mem_takeWhile_imp hx
  have hline : v.takeWhile isspace ++ v.dropWhile isspace = v := List.takeWhile_append_dropWhile
  have hput : put buf (ws.length+k.length) 0 = some (ws ++ (k ++ 0::(v ++ [0]))) := by
    rw [put_append (a := ws ++ k) (c := c) (z := v ++ [0]) (by rw [hbuf]; simp) (by simp)]
    simp
  have hval : scan isspace (ws ++ (k ++ 0::(v ++ [0]))) (ws.length+k.length+1) =
      some (ws.length+k.length+1+(v.takeWhile isspace).length) := by
    cases hrest : v.dropWhile isspace with
    | nil =>
      refine scan_append (a := ws ++ (k ++ [0])) (c := 0) (z := []) ?_ (by simp; omega) hws rfl
      rw [hrest,List.append_nil] at hline
      rw [hline]
      simp
    | cons x r =>
      have hx : isspace x = false := by
        have := List.head?_dropWhile_not isspace v
        rw [hrest] at this
        simpa using this
      have hv : v ++ [0] = v.takeWhile isspace ++ x::(r ++ [0]) := by
        rw [← List.cons_append,← hrest,← List.append_assoc,hline]
      refine scan_append (a := ws ++ (k ++ [0])) (c := x) (z := r ++ [0]) ?_ (by simp; omega) hws hx
      rw [hv]
      simp
  rw [importPair,hput]
  simp only [Option.bind_eq_bind,Option.bind_some]
  rw [hval,Option.bind_some,scan_string rfl rfl hk,Option.bind_some]
  cases hcase : k with
  | nil =>
    rw [List.length_nil,if_pos (Nat.add_zero _)]
    rfl
  | cons x r =>
    have hx : isspace x = false := by
      rw [hcase] at hspace
      have := List.head?_dropWhile_not isspace (x::r)
      rw [hspace] at this
      simpa using this
    obtain ⟨htrim,⟨y,hterm⟩,hne,hsub⟩ :=
      trim_string (a := ws) (v := k) (z := v ++ [0]) rfl ⟨x,by simp [hcase],hx⟩
    have hlen := put_length hterm
    rw [← hcase,if_neg (by rw [hcase]; simp),htrim,Option.bind_some,hterm,Option.bind_some,if_pos hne]
    refine importValue_eq d (b := y ++ v.takeWhile isspace) (v := v.dropWhile isspace) ?_ (fun h0 => hk (hsub h0)) ?_ ?_ ?_
    · rw [List.append_assoc y,← List.append_assoc (v.takeWhile isspace),hline]
    · intro h0
      exact hv (hline ▸ List.mem_append_right _ h0)
    · exact List.dropWhile_idempotent isspace v
    · simp only [List.length_append,List.length_cons] at hlen ⊢
      omega

theorem keyPart_append {w : CString} (hw : ∀ x ∈ w, isspace x = true) (hk : chr '=' ∉ k) :
    keyPart (w ++ (k ++ chr '='::v)) = trimmed k ∧ valuePart (w ++ (k ++ chr '='::v)) = trimmed v := by
  have hsep : ∀ x ∈ w ++ k, decide (x ≠ chr '=') = true := by
    intro x hx
    rw [decide_eq_true_iff]
    rintro rfl
    rcases List.mem_append.mp hx with hx | hx
    · exact absurd (hw _ hx) (by decide)
    · exact hk hx
  rw [← List.append_assoc,keyPart,valuePart,List.takeWhile_append_of_pos hsep,List.dropWhile_append_of_pos hsep]
  constructor
  · simp only [trimmed]
    rw [List.takeWhile_cons_of_neg (by decide),List.append_nil,List.dropWhile_append_of_pos hw]
  · rw [List.dropWhile_cons_of_neg (by decide),List.drop_one,List.tail_cons]

theorem key_passes {s : CString} (hsep : chr '=' ∉ s) (h0 : 0 ∉ s) :
    ∀ x ∈ s, (decide (x ≠ chr '=') && decide (x ≠ 0)) = true := by
  intro x hx
  rw [Bool.and_eq_true,decide_eq_true_iff,decide_eq_true_iff]
  constructor
  · rintro rfl
    exact hsep hx
  · rintro rfl
    exact h0 hx

/-- On a line with its terminator nothing outside of them is touched, and the result is the one of
the key and the value. -/
theorem importPropertyFromString_eq (d : Device) {line : CString} (h0 : 0 ∉ line) :
    importPropertyFromString d (line ++ [0]) =
      some (if (line.dropWhile isspace).head? ≠ some (chr '#') ∧ chr '=' ∈ line ∧ keyPart line ≠ [] then
        valueResult d (keyPart line) (valuePart line) else (d,-1)) := by
  have hws : ∀ x ∈ line.takeWhile isspace, isspace x = true := fun x hx => List.mem_takeWhile_imp hx
  have hline : line.takeWhile isspace ++ line.dropWhile isspace = line := List.takeWhile_append_dropWhile
  have hhead := List.head?_dropWhile_not isspace line
  generalize line.takeWhile isspace = ws at hws hline
  generalize line.dropWhile isspace = r at hline hhead
  subst hline
  rw [List.mem_append,not_or] at h0
  rw [importPropertyFromString]
  cases r with
  | nil =>
    have hkey : scan isspace (ws ++ [] ++ [0]) 0 = some (0+ws.length) :=
      scan_append (a := []) (c := 0) (z := []) (by simp) rfl hws rfl
    have hget : get (ws ++ [] ++ [0]) (0+ws.length) = some 0 := get_append (a := ws) (z := []) (by simp) (by simp)
    have hsep : chr '=' ∉ ws ++ [] := by
      rw [List.append_nil]
      exact fun h => absurd (hws _ h) (by decide)
    rw [hkey,if_neg (fun h => hsep h.2.1)]
    simp only [Option.bind_eq_bind,Option.bind_some,hget]
    rfl
  | cons c r =>
    have hc : isspace c = false := by simpa using hhead
    have hc0 : c ≠ 0 := fun hc => h0.2 (hc ▸ List.mem_cons_self)
    have hkey : scan isspace (ws ++ c::r ++ [0]) 0 = some (0+ws.length) :=
      scan_append (a := []) (c := c) (z := r ++ [0]) (by simp) rfl hws hc
    have hget : get (ws ++ c::r ++ [0]) (0+ws.length) = some c :=
      get_append (a := ws) (z := r ++ [0]) (by simp) (by simp)
    rw [hkey]
    simp only [Option.bind_eq_bind,Option.bind_some,hget]
    by_cases hhash : c = chr '#'
    · rw [if_pos (Or.inl hhash),if_neg (fun h => h.1 (congrArg some hhash))]
      rfl
    rw [if_neg (not_or.mpr ⟨hhash,hc0⟩),Nat.zero_add]
    have hne : (c::r).head? ≠ some (chr '#') := fun h => hhash (Option.some.inj h)
    generalize hl : c::r = l at h0 hne ⊢
    by_cases hsep : chr '=' ∈ l
    · obtain ⟨k,v,rfl,hk⟩ := List.eq_append_cons_of_mem hsep
      have hscan : scan (fun c => decide (c ≠ chr '=') && decide (c ≠ 0)) (ws ++ (k ++ chr '='::v) ++ [0]) ws.length =
          some (ws.length+k.length) :=
        scan_append (c := chr '=') (z := v ++ [0]) (by simp) rfl
          (key_passes hk fun h => h0.2 (List.mem_append_left _ h)) rfl
      have hget : get (ws ++ (k ++ chr '='::v) ++ [0]) (ws.length+k.length) = some (chr '=') :=
        get_append (a := ws ++ k) (z := v ++ [0]) (by simp) (by simp)
      have hspace : k.dropWhile isspace = k := by
        cases k with
        | nil => rfl
        | cons x k =>
          obtain ⟨rfl,-⟩ := List.cons.inj hl
          rw [List.dropWhile_cons_of_neg (by rw [hc]; decide)]
      obtain ⟨hkey,hvalue⟩ := keyPart_append hws hk (v := v)
      have htrimmed : trimmed k = removeTrailing isspace k := congrArg _ hspace
      rw [hscan,Option.bind_some,hget,Option.bind_some,if_neg (by decide),
        importPair_eq d (c := chr '=') (by simp) (fun h => h0.2 (List.mem_append_left _ h))
          (fun h => h0.2 (List.mem_append_right _ (List.mem_cons_of_mem _ h))) hspace,hkey,hvalue,htrimmed]
      by_cases hnil : removeTrailing isspace k = []
      · rw [if_neg (not_not_intro hnil),if_neg (fun h => h.2.2 hnil)]
      · rw [if_pos hnil,if_pos ⟨hne,List.mem_append_right _ hsep,hnil⟩]
    · have hscan : scan (fun c => decide (c ≠ chr '=') && decide (c ≠ 0)) (ws ++ l ++ [0]) ws.length =
          some (ws.length+l.length) :=
        scan_append (c := 0) (z := []) (by simp) rfl (key_passes hsep h0.2) rfl
      have hget : get (ws ++ l ++ [0]) (ws.length+l.length) = some 0 :=
        get_append (a := ws ++ l) (z := []) (by simp) (by simp)
      have hline : chr '=' ∉ ws ++ l := by
        rw [List.mem_append,not_or]
        exact ⟨fun h => absurd (hws _ h) (by decide),hsep⟩
      rw [hscan,Option.bind_some,hget,Option.bind_some,if_pos rfl,if_neg (fun h => hline h.2.1)]
      rfl

theorem head?_eq_some_iff {s : CString} (hs : s ≠ []) (c : UInt8) : s.head? = some c ↔ charAt s 0 = c := by
  cases s with
  | nil => exact absurd rfl hs
  | cons b s => simp [charAt]

theorem getLast?_eq_head?_iff {s : CString} (hs : s ≠ []) : s.getLast? = s.head? ↔ s.getLastD 0 = charAt s 0 := by
  cases s with
  | nil => exact absurd rfl hs
  | cons b s =>
    rw [List.getLast?_eq_some_getLast hs,List.head?_cons,Option.some.injEq,List.getLastD_eq_getLast?,
      List.getLast?_eq_some_getLast hs]
    rfl

theorem importLine_eq (line : CString) :
    importLine line = if Importable line then some (imported (keyPart line) (some (importedValue line))) else none := by
  rw [importLine]
  simp only
  by_cases hsep : chr '=' ∈ line
  · obtain ⟨w,v,rfl,hw⟩ := List.eq_append_cons_of_mem hsep
    obtain ⟨hkey,hvalue⟩ := keyPart_append (w := []) (k := w) (v := v) (fun x hx => absurd hx List.not_mem_nil) hw
    rw [List.nil_append] at hkey hvalue
    have hdrop : (w ++ chr '='::v).dropWhile isspace = w.dropWhile isspace ++ chr '='::v := by
      rw [List.dropWhile_append]
      split_ifs with hempty
      · rw [List.isEmpty_iff.mp hempty,List.dropWhile_cons_of_neg (by decide)]
        rfl
      · rfl
    have hnotin : chr '=' ∉ w.dropWhile isspace := fun h => hw ((List.dropWhile_sublist _).mem h)
    rw [hdrop,strchr_append hnotin,Option.bind_some,takeWhile_ne hnotin,List.drop_one,List.tail_cons]
    have hhead := head?_eq_some_iff (s := w.dropWhile isspace ++ chr '='::v) (by simp) (chr '#')
    have hname : removeTrailing isspace (w.dropWhile isspace) = keyPart (w ++ chr '='::v) := hkey.symm
    have hval : removeTrailing isspace (v.dropWhile isspace) = valuePart (w ++ chr '='::v) := hvalue.symm
    rw [hname,hval]
    rw [← hdrop] at hhead ⊢
    have hne : (w ++ chr '='::v).dropWhile isspace ≠ [] := by
      rw [hdrop]
      simp
    generalize w ++ chr '='::v = line at *
    by_cases hhash : charAt (line.dropWhile isspace) 0 = chr '#'
    · rw [if_pos (Or.inl hhash),if_neg (fun h => h.1 (hhead.mpr hhash))]
    rw [if_neg (not_or.mpr ⟨hhash,hne⟩)]
    by_cases hblank : keyPart line = [] ∨ valuePart line = []
    · rw [if_pos hblank,if_neg (fun h => hblank.elim h.2.2.1 h.2.2.2.1)]
    rw [if_neg hblank]
    rw [not_or] at hblank
    have hquoted : Quoted (valuePart line) ↔ charAt (valuePart line) 0 = chr '"' ∨ charAt (valuePart line) 0 = chr '\'' :=
      or_congr (head?_eq_some_iff hblank.2 _) (head?_eq_some_iff hblank.2 _)
    have hends := getLast?_eq_head?_iff hblank.2
    rw [importedValue]
    by_cases hq : Quoted (valuePart line)
    · rw [if_pos (hquoted.mp hq),if_pos hq]
      by_cases hlast : (valuePart line).getLastD 0 = charAt (valuePart line) 0
      · rw [if_neg (not_not_intro hlast),
          if_pos ⟨fun h => hhash (hhead.mp h),hsep,hblank.1,hblank.2,fun _ => hends.mpr hlast⟩]
      · rw [if_pos hlast,if_neg (fun h => hlast (hends.mp (h.2.2.2.2 hq)))]
    · rw [if_neg (mt hquoted.mpr hq),if_neg hq,
        if_pos ⟨fun h => hhash (hhead.mp h),hsep,hblank.1,hblank.2,fun h => absurd h hq⟩]
  · have hnotin : chr '=' ∉ line.dropWhile isspace := fun h => hsep ((List.dropWhile_sublist _).mem h)
    rw [strchr_eq_none hnotin,Option.bind_none,ite_self,if_neg (fun h => hsep h.2.1)]

theorem importOne_imported (d : Device) (key value : CString) :
    importOne d (imported key (some value)) = addImported d key value := by
  simp only [importOne,imported,addImported,decide_eq_true_eq]

theorem importPropertyFromString_importOne (d : Device) {line : CString} (h0 : 0 ∉ line) :
    importPropertyFromString d (line ++ [0]) = some ((importLine line).elim (d,-1) fun i => (importOne d i,0)) := by
  rw [importPropertyFromString_eq d h0,importLine_eq]
  congr 1
  by_cases hline : Importable line
  · rw [if_pos hline,if_pos ⟨hline.1,hline.2.1,hline.2.2.1⟩,valueResult,if_pos hline.2.2.2,Option.elim_some,
      importOne_imported]
    rfl
  · rw [if_neg hline,Option.elim_none]
    by_cases hkey : (line.dropWhile isspace).head? ≠ some (chr '#') ∧ chr '=' ∈ line ∧ keyPart line ≠ []
    · rw [if_pos hkey,valueResult,if_neg (fun h => hline ⟨hkey.1,hkey.2.1,hkey.2.2,h⟩)]
    · rw [if_neg hkey]

/-- A line is imported if and only if it has a key and a value with consistent quoting; then exactly
its property is set, and nothing outside of the line and its terminator is touched. -/
theorem importPropertyFromString_spec (d : Device) {line : CString} (h0 : 0 ∉ line) :
    importPropertyFromString d (line ++ [0]) =
      some (if Importable line then (addImported d (keyPart line) (importedValue line),0) else (d,-1)) := by
  rw [importPropertyFromString_importOne d h0,importLine_eq]
  by_cases hline : Importable line
  · rw [if_pos hline,if_pos hline,Option.elim_some,importOne_imported]
  · rw [if_neg hline,if_neg hline,Option.elim_none]

/-- What is promised of a line: it is accepted if it can be imported, and then exactly its property is set, with
an entry that is flagged for storage if its key does not start with a dot. -/
structure ImportsLine (d : Device) (line : CString) (r : Device × ℤ) : Prop where
  accepts : r.2 = 0 ↔ Importable line
  entry : Importable line → ∃ e, r.1.propertiesList.getByName (keyPart line) = some e ∧
    e.value = some (importedValue line) ∧ (e.num ≠ 0 ↔ charAt (keyPart line) 0 ≠ chr '.')
  others : Importable line → ∀ name, name ≠ keyPart line →
    r.1.propertiesList.getByName name = d.propertiesList.getByName name
  device : r.1 = if Importable line then { d with envpUptodate := false, propertiesList := r.1.propertiesList } else d

/-- The key is private, but the device has a property of that name that is stored. -/
def StoredPrivate (d : Device) (name : CString) : Prop :=
  charAt name 0 = chr '.' ∧ ∃ e, d.propertiesList.getByName name = some e ∧ e.num ≠ 0

section Entry

variable {d : Device} {name : CString}

theorem addImported_entry (hd : d.propertiesList.Sorted) (name value : CString) :
    (addImported d name value).propertiesList.getByName name = some ⟨name,some value,
      if charAt name 0 ≠ chr '.' then 1 else (d.propertiesList.getByName name).elim 0 (·.num)⟩ := by
  unfold addImported
  dsimp only
  split_ifs
  · rw [Device.markStored,UdevList.getByName_setNum,Device.setProperty,hd.getByName_add]
    rfl
  · exact hd.getByName_add

theorem addImported_others {other : CString} (h : other ≠ name) (value : CString) :
    (addImported d name value).propertiesList.getByName other = d.propertiesList.getByName other := by
  unfold addImported
  dsimp only
  split_ifs
  · exact (UdevList.getByName_setNum_ne 1 h).trans (UdevList.getByName_add_ne _ h)
  · exact UdevList.getByName_add_ne _ h

theorem addImported_device (d : Device) (name value : CString) :
    addImported d name value =
      { d with envpUptodate := false, propertiesList := (addImported d name value).propertiesList } := by
  unfold addImported
  dsimp only
  split_ifs <;> rfl

theorem flag_iff (hd : d.propertiesList.Sorted) (name value : CString) :
    (∃ e, (addImported d name value).propertiesList.getByName name = some e ∧ e.value = some value ∧
      (e.num ≠ 0 ↔ charAt name 0 ≠ chr '.')) ↔ ¬StoredPrivate d name := by
  rw [addImported_entry hd]
  simp only [Option.some.injEq,exists_eq_left',true_and,StoredPrivate]
  by_cases hdot : charAt name 0 = chr '.'
  · cases hget : d.propertiesList.getByName name with
    | none => simp [hdot]
    | some e => simp [hdot]
  · simp [hdot]

end Entry

/-- A line is imported as promised, without a look outside of the line and its terminator, unless its key
is private and stored already. -/
theorem imports_line_iff {d : Device} (hd : d.propertiesList.Sorted) {line : CString} (h0 : 0 ∉ line) :
    (∃ r, importPropertyFromString d (line ++ [0]) = some r ∧ ImportsLine d line r) ↔
      (Importable line → ¬StoredPrivate d (keyPart line)) := by
  rw [importPropertyFromString_spec d h0]
  simp only [Option.some.injEq,exists_eq_left']
  by_cases hline : Importable line
  · rw [if_pos hline,← flag_iff hd (keyPart line) (importedValue line)]
    constructor
    · intro h _
      exact h.entry hline
    · intro h
      refine ⟨by simp [hline],h,fun _ name hname => addImported_others hname _,?_⟩
      rw [if_pos hline]
      exact addImported_device d _ _
  · rw [if_neg hline]
    refine ⟨fun _ himport => absurd himport hline,fun _ => ?_⟩
    exact ⟨by simp [hline],fun h => absurd h hline,fun h => absurd h hline,(if_neg hline).symm⟩

theorem imports_line_iff_quoted :
    ∃ r, importPropertyFromString {} (str " KEY = \"a b\" " ++ [0]) = some r ∧
      ImportsLine {} (str " KEY = \"a b\" ") r := by
  have hd : ({} : Device).propertiesList.Sorted := List.Pairwise.nil
  refine (imports_line_iff hd (by decide +kernel)).mpr fun _ h => ?_
  obtain ⟨-,e,he,-⟩ := h
  cases he

/-- A device on which IMPORT{cmdline} has set a private property. -/
def storedDot : Device := { propertiesList := [⟨str ".x",some (str "1"),1⟩] }

theorem private_stays_stored : ¬∃ r, importPropertyFromString storedDot (str ".x=2" ++ [0]) = some r ∧
    ImportsLine storedDot (str ".x=2") r := by
  rintro ⟨r,hrun,himports⟩
  have hline : Importable (str ".x=2") := by decide +kernel
  obtain ⟨e,he,-,hflag⟩ := himports.entry hline
  rw [importPropertyFromString_spec storedDot (by decide +kernel),if_pos hline] at hrun
  obtain rfl := Option.some.inj hrun
  have hentry : (addImported storedDot (keyPart (str ".x=2")) (importedValue (str ".x=2"))).propertiesList.getByName
      (keyPart (str ".x=2")) = some ⟨str ".x",some (str "2"),1⟩ := by decide +kernel
  obtain rfl := Option.some.inj (hentry.symm.trans he)
  exact hflag.mp (by decide) (by decide +kernel)

end Rules
end Udev
