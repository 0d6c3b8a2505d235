import Udev.HwdbSearch

/-! The files of the hardware database: records of match lines and data lines, separated by
empty lines. A line loses its comment and the white space at its end before it is looked at. -/
namespace Udev
namespace Hwdb

open CString Text RadixTree

/-- `insert_data`: a line without a key or a value is only logged. -/
def insertData (trie : Trie) (matchList : List CString) (line : CString) : Trie :=
  match strchr line (chr '=') with
  | none => trie
  | some value =>
    let key := line.take (line.length-value.length)
    if key = [] ∨ value.drop 1 = [] then trie
    else matchList.foldl (fun t m => trieInsert t m key (value.drop 1)) trie

inductive HwState
  | hwMatch | hwData | hwNone
  deriving DecidableEq, Repr

/-- The state of `import_file` between two lines. -/
structure Import where
  state : HwState := .hwNone
  matchList : List CString := []
  trie : Trie

def stripLine (line : CString) : CString := removeTrailing isspace (line.takeWhile (· ≠ chr '#'))

/-- The `switch` of `import_file` on a stripped line. -/
def importStripped (s : Import) (line : CString) : Import :=
  match s.state with
  | .hwNone =>
    if line = [] then s
    else if charAt line 0 = chr ' ' then s
    else { s with state := .hwMatch, matchList := s.matchList ++ [line] }
  | .hwMatch =>
    if line = [] then { s with state := .hwNone, matchList := [] }
    else if charAt line 0 ≠ chr ' ' then { s with matchList := s.matchList ++ [line] }
    else { s with state := .hwData, trie := insertData s.trie s.matchList line }
  | .hwData =>
    if line = [] then { s with state := .hwNone, matchList := [] }
    else if charAt line 0 ≠ chr ' ' then { s with state := .hwNone, matchList := [] }
    else { s with trie := insertData s.trie s.matchList line }

def importLine (s : Import) (line : CString) : Import :=
  if charAt line 0 = chr '#' then s else importStripped s (stripLine line)

/-- The loop of `import_file`. -/
def importLoop : ℕ → List UInt8 → Import → Import
  | 0, _, s => s
  | fuel+1, content, s =>
    match fgets lineMax content with
    | none => s
    | some (line,rest) => importLoop fuel rest (importLine s line)

/-- `import_file` on the content of a file; every line takes at least one byte. -/
def importFile (trie : Trie) (content : List UInt8) : Trie := (importLoop content.length content { trie := trie }).trie

/-- A record: its matches, and the keys and values of its data lines. -/
structure Record where
  matchs : List CString
  data : List (CString × CString)

def dataLine (d : CString × CString) : CString := chr ' '::(d.1 ++ chr '='::d.2)

def Record.lines (r : Record) : List CString := r.matchs ++ r.data.map dataLine

/-- The lines of records, with an empty line between them. -/
def recordLines : List Record → List CString
  | [] => []
  | [r] => r.lines
  | r::rs => r.lines ++ []::recordLines rs

def textFile (lines : List CString) : List UInt8 := lines.flatMap (· ++ [chr '\n'])

/-- All matches with each data line in turn. -/
def Record.product (r : Record) : List Insertion :=
  r.data.flatMap fun d => r.matchs.map fun m => (m,chr ' '::d.1,d.2)

/-- A line of ASCII text that fits the buffer of the reader. -/
structure TextLine (line : CString) : Prop where
  ascii : ∀ c ∈ line, 0 < c ∧ c < 0x80
  newline : chr '\n' ∉ line
  short : line.length < 2047

instance (line : CString) : Decidable (TextLine line) :=
  decidable_of_iff ((line.all fun c => 0 < c && c < 0x80) = true ∧ chr '\n' ∉ line ∧ line.length < 2047)
    ⟨fun h => ⟨by simpa using h.1,h.2.1,h.2.2⟩,fun h => ⟨by simpa using h.ascii,h.newline,h.short⟩⟩

structure Record.WellFormed (r : Record) : Prop where
  text : ∀ line ∈ r.lines, TextLine line
  start : ∀ m ∈ r.matchs, m ≠ [] ∧ charAt m 0 ≠ chr ' ' ∧ chr '#' ∉ m
  key : ∀ d ∈ r.data, d.1 ≠ [] ∧ chr '=' ∉ d.1
  value : ∀ d ∈ r.data, d.2 ≠ []

instance (r : Record) : Decidable r.WellFormed :=
  decidable_of_iff ((∀ line ∈ r.lines, TextLine line) ∧
    (∀ m ∈ r.matchs, m ≠ [] ∧ charAt m 0 ≠ chr ' ' ∧ chr '#' ∉ m) ∧
    (∀ d ∈ r.data, d.1 ≠ [] ∧ chr '=' ∉ d.1) ∧ ∀ d ∈ r.data, d.2 ≠ [])
    ⟨fun h => ⟨h.1,h.2.1,h.2.2.1,h.2.2.2⟩,fun h => ⟨h.text,h.start,h.key,h.value⟩⟩

/-- No data line has a comment, and no line ends in white space. -/
def Record.Plain (r : Record) : Prop :=
  (∀ d ∈ r.data, chr '#' ∉ d.1 ∧ chr '#' ∉ d.2) ∧ ∀ line ∈ r.lines, ∀ c ∈ line.getLast?, isspace c = false

instance (r : Record) : Decidable r.Plain := inferInstanceAs (Decidable (_ ∧ _))

section Lines

structure PlainLine (line : CString) : Prop where
  text : TextLine line
  comment : chr '#' ∉ line
  last : ∀ c ∈ line.getLast?, isspace c = false

theorem removeTrailing_append {p : UInt8 → Bool} {s t : CString} (hs : ∀ c ∈ s.getLast?, p c = false)
    (ht : ∀ c ∈ t, p c = true) : removeTrailing p (s ++ t) = s := by
  rw [removeTrailing,List.reverse_append,List.dropWhile_append_of_pos (fun c hc => ht c (List.mem_reverse.mp hc))]
  have hkeep : s.reverse.dropWhile p = s.reverse := by
    cases hrev : s.reverse with
    | nil => rfl
    | cons c cs =>
      have hlast : s.getLast? = some c := by rw [← List.head?_reverse,hrev]; rfl
      rw [List.dropWhile_cons_of_neg (by rw [hs c (by rw [hlast]; rfl)]; simp)]
  rw [hkeep,List.reverse_reverse]

theorem stripLine_plain {line : CString} (h : PlainLine line) : stripLine (line ++ [chr '\n']) = line := by
  have hcomment : (line ++ [chr '\n']).takeWhile (· ≠ chr '#') = line ++ [chr '\n'] := by
    refine List.takeWhile_eq_self_iff.mpr ?_
    intro c hc
    rcases List.mem_append.mp hc with hc | hc
    · simp only [decide_eq_true_eq]
      rintro rfl
      exact h.comment hc
    · rw [List.mem_singleton.mp hc]
      decide
  rw [stripLine,hcomment]
  refine removeTrailing_append h.last ?_
  intro c hc
  rw [List.mem_singleton.mp hc]
  decide

theorem importLine_plain {line : CString} (h : PlainLine line) (s : Import) :
    importLine s (line ++ [chr '\n']) = importStripped s line := by
  have hstart : charAt (line ++ [chr '\n']) 0 ≠ chr '#' := by
    cases line with
    | nil => decide
    | cons c line =>
      intro heq
      exact h.comment (List.mem_cons.mpr (Or.inl (by simpa [charAt] using heq.symm)))
  rw [importLine,if_neg hstart,stripLine_plain h]

theorem importLoop_lines {lines : List CString} (hlines : ∀ line ∈ lines, PlainLine line) (s : Import) {fuel : ℕ}
    (hfuel : (textFile lines).length ≤ fuel) : importLoop fuel (textFile lines) s = lines.foldl importStripped s := by
  induction lines generalizing s fuel with
  | nil => cases fuel <;> rfl
  | cons line lines ih =>
    have hline := hlines line List.mem_cons_self
    have hfile : textFile (line::lines) = line ++ chr '\n'::textFile lines := by simp [textFile]
    rw [hfile,List.length_append,List.length_cons] at hfuel
    obtain ⟨fuel,rfl⟩ : ∃ m, fuel = m+1 := ⟨fuel-1,by omega⟩
    have hnul : 0 ∉ line := fun hmem => absurd (hline.text.ascii 0 hmem).1 (by decide)
    have hshort : line.length+1 < lineMax := by
      have := hline.text.short
      rw [lineMax]
      omega
    rw [hfile,importLoop,fgets_line hshort hline.text.newline hnul]
    simp only [importLine_plain hline]
    exact ih (fun x hx => hlines x (List.mem_cons_of_mem _ hx)) _ (by omega)

end Lines

section Records

theorem insertData_dataLine {d : CString × CString} (hkey : chr '=' ∉ d.1) (hvalue : d.2 ≠ []) (trie : Trie)
    (matchs : List CString) :
    insertData trie matchs (dataLine d) = insertAll trie (matchs.map fun m => (m,chr ' '::d.1,d.2)) := by
  have hsplit : dataLine d = (chr ' '::d.1) ++ chr '='::d.2 := rfl
  have hnot : chr '=' ∉ chr ' '::d.1 := by
    rw [List.mem_cons,not_or]
    exact ⟨by decide,hkey⟩
  have htake : ((chr ' '::d.1) ++ chr '='::d.2).take
      (((chr ' '::d.1) ++ chr '='::d.2).length-(chr '='::d.2).length) = chr ' '::d.1 := by
    rw [List.length_append,Nat.add_sub_cancel,List.take_left]
  have hne : ¬(chr ' '::d.1 = [] ∨ (chr '='::d.2).drop 1 = []) := by
    rw [not_or]
    exact ⟨List.cons_ne_nil _ _,hvalue⟩
  rw [insertData,hsplit,strchr_append hnot]
  simp only [htake,if_neg hne,insertAll,List.foldl_map]
  rfl

theorem foldl_matchs {matchs : List CString} (h : ∀ m ∈ matchs, m ≠ [] ∧ charAt m 0 ≠ chr ' ') (pre : List CString)
    (trie : Trie) :
    matchs.foldl importStripped ⟨.hwMatch,pre,trie⟩ = ⟨.hwMatch,pre ++ matchs,trie⟩ := by
  induction matchs generalizing pre with
  | nil => rw [List.append_nil]; rfl
  | cons m matchs ih =>
    obtain ⟨hne,hspace⟩ := h m List.mem_cons_self
    have hstep : importStripped ⟨.hwMatch,pre,trie⟩ m = ⟨.hwMatch,pre ++ [m],trie⟩ := by
      simp only [importStripped,if_neg hne,if_pos hspace]
    rw [List.foldl_cons,hstep,ih fun x hx => h x (List.mem_cons_of_mem _ hx),List.append_assoc]
    rfl

theorem importStripped_data {d : CString × CString} (hkey : chr '=' ∉ d.1) (hvalue : d.2 ≠ []) {state : HwState}
    (hstate : state ≠ .hwNone) (matchs : List CString) (trie : Trie) :
    importStripped ⟨state,matchs,trie⟩ (dataLine d) =
      ⟨.hwData,matchs,insertAll trie (matchs.map fun m => (m,chr ' '::d.1,d.2))⟩ := by
  have hne : dataLine d ≠ [] := List.cons_ne_nil _ _
  have hspace : ¬charAt (dataLine d) 0 ≠ chr ' ' := by simp [dataLine,charAt]
  cases state with
  | hwNone => exact absurd rfl hstate
  | hwMatch => simp only [importStripped,if_neg hne,if_neg hspace,insertData_dataLine hkey hvalue]
  | hwData => simp only [importStripped,if_neg hne,if_neg hspace,insertData_dataLine hkey hvalue]

theorem foldl_data {data : List (CString × CString)} (h : ∀ d ∈ data, chr '=' ∉ d.1 ∧ d.2 ≠ []) {state : HwState}
    (hstate : state ≠ .hwNone) (matchs : List CString) (trie : Trie) :
    ∃ state', state' ≠ .hwNone ∧ (data.map dataLine).foldl importStripped ⟨state,matchs,trie⟩ =
      ⟨state',matchs,insertAll trie (data.flatMap fun d => matchs.map fun m => (m,chr ' '::d.1,d.2))⟩ := by
  induction data generalizing state trie with
  | nil => exact ⟨state,hstate,rfl⟩
  | cons d data ih =>
    obtain ⟨hkey,hvalue⟩ := h d List.mem_cons_self
    obtain ⟨state',hstate',hrest⟩ := ih (fun x hx => h x (List.mem_cons_of_mem _ hx)) (by decide : HwState.hwData ≠ .hwNone)
      (insertAll trie (matchs.map fun m => (m,chr ' '::d.1,d.2)))
    refine ⟨state',hstate',?_⟩
    rw [List.map_cons,List.foldl_cons,importStripped_data hkey hvalue hstate,hrest,List.flatMap_cons]
    simp only [insertAll,List.foldl_append]

theorem foldl_data_none (data : List (CString × CString)) (trie : Trie) :
    (data.map dataLine).foldl importStripped ⟨.hwNone,[],trie⟩ = ⟨.hwNone,[],trie⟩ := by
  induction data with
  | nil => rfl
  | cons d data ih => exact ih

theorem foldl_record {r : Record} (h : r.WellFormed) (trie : Trie) :
    ∃ state matchs, r.lines.foldl importStripped ⟨.hwNone,[],trie⟩ = ⟨state,matchs,insertAll trie r.product⟩ ∧
      (state = .hwNone → matchs = []) := by
  obtain ⟨matchs,data⟩ := r
  have hdata : ∀ d ∈ data, chr '=' ∉ d.1 ∧ d.2 ≠ [] := fun d hd => ⟨(h.key d hd).2,h.value d hd⟩
  have hmatchs : ∀ m ∈ matchs, m ≠ [] ∧ charAt m 0 ≠ chr ' ' := fun m hm => ⟨(h.start m hm).1,(h.start m hm).2.1⟩
  rw [Record.lines,List.foldl_append]
  cases matchs with
  | nil =>
    refine ⟨.hwNone,[],?_,fun _ => rfl⟩
    have hproduct : Record.product ⟨[],data⟩ = [] := by simp [Record.product]
    rw [hproduct]
    exact foldl_data_none data trie
  | cons m matchs =>
    obtain ⟨hne,hspace⟩ := hmatchs m List.mem_cons_self
    have hfirst : importStripped ⟨.hwNone,[],trie⟩ m = ⟨.hwMatch,[m],trie⟩ := by
      simp only [importStripped,if_neg hne,if_neg hspace,List.nil_append]
    obtain ⟨state,hstate,hrest⟩ := foldl_data hdata (by decide : HwState.hwMatch ≠ .hwNone) (m::matchs) trie
    refine ⟨state,m::matchs,?_,fun hnone => absurd hnone hstate⟩
    rw [List.foldl_cons,hfirst,foldl_matchs fun x hx => hmatchs x (List.mem_cons_of_mem _ hx)]
    exact hrest

theorem importStripped_nil {state : HwState} {matchs : List CString} (h : state = .hwNone → matchs = []) (trie : Trie) :
    importStripped ⟨state,matchs,trie⟩ [] = ⟨.hwNone,[],trie⟩ := by
  cases state with
  | hwNone => rw [h rfl]; rfl
  | hwMatch => rfl
  | hwData => rfl

theorem insertAll_append (trie : Trie) (l l' : List Insertion) :
    insertAll trie (l ++ l') = insertAll (insertAll trie l) l' := List.foldl_append

theorem foldl_records {records : List Record} (h : ∀ r ∈ records, r.WellFormed) (trie : Trie) :
    ((recordLines records).foldl importStripped ⟨.hwNone,[],trie⟩).trie =
      insertAll trie (records.flatMap Record.product) := by
  induction records generalizing trie with
  | nil => rfl
  | cons r records ih =>
    obtain ⟨state,matchs,hrecord,hnone⟩ := foldl_record (h r List.mem_cons_self) trie
    cases records with
    | nil =>
      rw [recordLines,hrecord,List.flatMap_singleton]
    | cons r' records =>
      have hlines : recordLines (r::r'::records) = r.lines ++ []::recordLines (r'::records) := rfl
      have hproduct : (r::r'::records).flatMap Record.product = r.product ++ (r'::records).flatMap Record.product :=
        List.flatMap_cons
      rw [hlines,List.foldl_append,hrecord,List.foldl_cons,importStripped_nil hnone,
        ih fun x hx => h x (List.mem_cons_of_mem _ hx),hproduct,insertAll_append]

theorem plainLine_of_record {r : Record} (h : r.WellFormed) (hp : r.Plain) {line : CString} (hline : line ∈ r.lines) :
    PlainLine line := by
  refine ⟨h.text line hline,?_,hp.2 line hline⟩
  rcases List.mem_append.mp hline with hm | hd
  · exact (h.start line hm).2.2
  · obtain ⟨d,hmem,rfl⟩ := List.mem_map.mp hd
    obtain ⟨hkey,hvalue⟩ := hp.1 d hmem
    simp only [dataLine,List.mem_cons,List.mem_append,not_or]
    exact ⟨by decide,hkey,by decide,hvalue⟩

theorem plainLine_records {records : List Record} (h : ∀ r ∈ records, r.WellFormed) (hp : ∀ r ∈ records, r.Plain) :
    ∀ line ∈ recordLines records, PlainLine line := by
  have hempty : PlainLine [] := ⟨⟨by simp,by simp,by simp⟩,by simp,by simp⟩
  induction records with
  | nil => intro line hline; cases hline
  | cons r records ih =>
    have hfirst : ∀ line ∈ r.lines, PlainLine line := fun line hline =>
      plainLine_of_record (h r List.mem_cons_self) (hp r List.mem_cons_self) hline
    cases records with
    | nil => exact hfirst
    | cons r' records =>
      intro line hline
      rcases List.mem_append.mp hline with hline | hline
      · exact hfirst line hline
      · rcases List.mem_cons.mp hline with rfl | hline
        · exact hempty
        · exact ih (fun x hx => h x (List.mem_cons_of_mem _ hx)) (fun x hx => hp x (List.mem_cons_of_mem _ hx)) line hline

theorem importFile_records {records : List Record} (h : ∀ r ∈ records, r.WellFormed) (hp : ∀ r ∈ records, r.Plain)
    (trie : Trie) :
    importFile trie (textFile (recordLines records)) = insertAll trie (records.flatMap Record.product) := by
  rw [importFile,importLoop_lines (plainLine_records h hp) _ (Nat.le_refl _),foldl_records h]

end Records

/-- The build of the hardware database: a file inserts the products of its records, and with
ASCII patterns the index depends on the last values only, and so does every lookup. -/
theorem hwdb_build :
    (∀ (trie : Trie) (records : List Record), (∀ r ∈ records, r.WellFormed) → (∀ r ∈ records, r.Plain) →
      importFile trie (textFile (recordLines records)) = insertAll trie (records.flatMap Record.product)) ∧
    ∀ l l' : List Insertion, NulFree l → NulFree l' → (∀ r ∈ l, ∀ c ∈ r.1, c < 0x80) →
      (∀ r ∈ l', ∀ c ∈ r.1, c < 0x80) →
      (∀ pattern key, lastValue l pattern key = lastValue l' pattern key) →
      (insertAll trieNew l).tree = (insertAll trieNew l').tree ∧
      Ordered (insertAll trieNew l).tree ∧ Values SortedMap.Sorted (insertAll trieNew l).tree ∧
      ∀ version, (trieStore version (insertAll trieNew l)).length < 2^64 →
        (trieStore version (insertAll trieNew l')).length < 2^64 →
        ∀ fnmatch fuel search, hwdbLookup fnmatch fuel (trieStore version (insertAll trieNew l)) search =
          hwdbLookup fnmatch fuel (trieStore version (insertAll trieNew l')) search := by
  refine ⟨fun trie records h hp => importFile_records h hp trie,?_⟩
  intro l l' hl hl' hascii hascii' hlast
  have htree : (insertAll trieNew l).tree = insertStrings emptyTree l := by
    rw [(insertAll_spec valid_trieNew hl).2,tree_trieNew]
  have hsame : (insertAll trieNew l).tree = (insertAll trieNew l').tree := by
    rw [htree,(insertAll_spec valid_trieNew hl').2,tree_trieNew,insertStrings_eq hascii hascii' hlast]
  refine ⟨hsame,ordered_insertAll hl,htree ▸ values_insertStrings l,?_⟩
  intro version hsmall hsmall' fnmatch fuel search
  rw [hwdbLookup_trieStore hl hsmall,hwdbLookup_trieStore hl' hsmall',hsame]

/-- Two records, the second with two matches. -/
def usbFile : List Record :=
  [⟨[str "usb:v04F2*"],[(str "ID_VENDOR",str "Chicony")]⟩,
   ⟨[str "usb:v04E8*",str "usb:v04E9*"],[(str "ID_VENDOR",str "Samsung"),(str "ID_MODEL",str "x")]⟩]

/-- A value is given again behind that of another pattern. -/
def givenAgain : List Insertion :=
  [(str "usb:*",str " ID_BUS",str "u"),(str "pci:*",str " ID_BUS",str "pci"),(str "usb:*",str " ID_BUS",str "usb")]

def lastGiven : List Insertion := [(str "usb:*",str " ID_BUS",str "usb"),(str "pci:*",str " ID_BUS",str "pci")]

theorem lastValue_givenAgain (pattern key : CString) : lastValue givenAgain pattern key = lastValue lastGiven pattern key := by
  have hne : str "usb:*" ≠ str "pci:*" := by decide
  simp only [givenAgain,lastGiven,lastValue,List.foldl_cons,List.foldl_nil]
  split_ifs with hpci husb
  · exact absurd (hpci.1.trans husb.1.symm) hne
  · rfl
  · rfl
  · rfl

theorem hwdb_build_usb :
    importFile trieNew (textFile (recordLines usbFile)) = insertAll trieNew (usbFile.flatMap Record.product) ∧
    (insertAll trieNew givenAgain).tree = (insertAll trieNew lastGiven).tree ∧
    ∀ fnmatch fuel search, hwdbLookup fnmatch fuel (trieStore 1 (insertAll trieNew givenAgain)) search =
      hwdbLookup fnmatch fuel (trieStore 1 (insertAll trieNew lastGiven)) search := by
  obtain ⟨hfile,hlists⟩ := hwdb_build
  obtain ⟨htree,-,-,hlookup⟩ := hlists givenAgain lastGiven (by decide) (by decide) (by decide +kernel) (by decide +kernel) lastValue_givenAgain
  exact ⟨hfile trieNew usbFile (by decide +kernel) (by decide +kernel),htree,hlookup 1 (by decide +kernel) (by decide +kernel)⟩

/-- A record whose value has a number sign. -/
def commentRecord : Record := ⟨[str "usb:v04F2*"],[(str "ID_MODEL",str "a#b")]⟩

/-- The value ends where the comment starts. -/
theorem comment_in_value : commentRecord.WellFormed ∧
    importFile trieNew (textFile (recordLines [commentRecord])) =
      insertAll trieNew [(str "usb:v04F2*",str " ID_MODEL",str "a")] ∧
    importFile trieNew (textFile (recordLines [commentRecord])) ≠ insertAll trieNew commentRecord.product := by
  refine ⟨by decide +kernel,by rfl,?_⟩
  intro h
  have hbuf := congrArg (fun t => t.strings.buf) h
  exact absurd hbuf (by decide +kernel)

end Hwdb
end Udev
