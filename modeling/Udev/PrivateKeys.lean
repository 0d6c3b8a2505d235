import Udev.DeviceSteps
import Udev.Database
import Udev.SocketFilter

/-! Properties with a name that starts with a dot are private: they are neither stored in
the database nor exported to programs and listeners. Two imports break this. -/
namespace Udev
namespace Rules

open CString RuleLine Text Runs Device Database

instance (key : CString) : Decidable (Public key) := inferInstanceAs (Decidable (_ ≠ _))

/-- The device without its private properties. -/
def withoutPrivate (d : Device) : Device :=
  { d with propertiesList := d.propertiesList.filter fun e => Public e.name }

/-- No private property is stored, and none is in the environment. -/
structure Clean (d : Device) : Prop where
  sorted : d.propertiesList.Sorted
  stored : ∀ e ∈ d.propertiesList, ¬Public e.name → e.num = 0
  envp : d.envpUptodate = true → ∀ s ∈ d.envp, Public s

section Envp

theorem public_append {key : CString} (h : Public key) (value : CString) : Public (key ++ str "=" ++ value) := by
  cases key with
  | nil => simp [Public,charAt,str,chr]
  | cons c key => simpa [Public,charAt] using h

/-- The strings of the environment start with the names of public properties. -/
theorem envpLoop_public {l : UdevList} {i n : ℕ} {envp : List CString} (h : envpLoop l i n = some envp) :
    ∀ s ∈ envp, Public s := by
  intro s hs
  rw [(envpLoop_strings h).1] at hs
  obtain ⟨e,he,rfl⟩ := List.mem_map.mp hs
  exact public_append (of_decide_eq_true (List.mem_filter.mp he).2) _

theorem envpLoop_filter (l : UdevList) (i n : ℕ) :
    envpLoop (l.filter fun e => Public e.name) i n = envpLoop l i n := by
  induction l generalizing i n with
  | nil => rfl
  | cons e es ih =>
    by_cases hname : charAt e.name 0 = chr '.'
    · have hprivate : ¬Public e.name := not_not.mpr hname
      rw [List.filter_cons_of_neg (by simpa using hprivate),ih]
      conv_rhs => rw [envpLoop,if_pos hname]
    · have hpublic : Public e.name := hname
      rw [List.filter_cons_of_pos (by simpa using hpublic),envpLoop,envpLoop]
      simp only [ih]

end Envp

section Clean

variable {d : Device}

theorem Clean.setProperty (h : Clean d) (key value : CString) : Clean (d.setProperty key value) where
  sorted := h.sorted.add key _
  stored := by
    intro e he hprivate
    rcases h.sorted.mem_add.mp he with rfl | ⟨he,-⟩
    · cases hget : d.propertiesList.getByName key with
      | none => rfl
      | some x =>
        have hname : x.name = key := by simpa using List.find?_some hget
        exact h.stored x (List.mem_of_find?_eq_some hget) (hname ▸ hprivate)
    · exact h.stored e he hprivate
  envp := by
    intro huptodate
    cases huptodate

theorem Clean.markStored (h : Clean d) {key : CString} (hkey : Public key) : Clean (d.markStored key) where
  sorted := h.sorted.setNum key 1
  stored := by
    intro e he hprivate
    obtain ⟨x,hx,rfl⟩ := List.mem_map.mp he
    by_cases hname : x.name = key
    · rw [if_pos hname] at hprivate
      exact absurd (hname ▸ hkey) hprivate
    · rw [if_neg hname] at hprivate ⊢
      exact h.stored x hx hprivate
  envp := h.envp

theorem Clean.syncDevlinks (h : Clean d) : Clean d.syncDevlinks := by
  have hflag : Clean { d with devlinksUptodate := true } := ⟨h.sorted,h.stored,h.envp⟩
  unfold Device.syncDevlinks
  split_ifs
  · exact h
  · exact hflag
  · exact hflag.setProperty _ _

theorem Clean.syncTags (h : Clean d) : Clean d.syncTags := by
  have hflag : Clean { d with tagsUptodate := true } := ⟨h.sorted,h.stored,h.envp⟩
  unfold Device.syncTags
  split_ifs
  · exact h
  · exact hflag
  · exact hflag.setProperty _ _

theorem Clean.sync (h : Clean d) : Clean d.sync := h.syncDevlinks.syncTags

theorem Clean.deleteProperty (h : Clean d) (key : CString) : Clean (d.deleteProperty key) := by
  have hflag : Clean { d with envpUptodate := false } := ⟨h.sorted,h.stored,fun huptodate => nomatch huptodate⟩
  have hsync := hflag.sync
  exact ⟨hsync.sorted.delete key,fun e he => hsync.stored e (List.mem_of_mem_filter he),hsync.envp⟩

theorem Clean.propertiesEnvp (h : Clean d) : Clean d.propertiesEnvp.2 := by
  unfold Device.propertiesEnvp
  split_ifs
  · exact h
  · dsimp only
    split
    · exact h.sync
    · next envp henvp => exact ⟨h.sync.sorted,h.sync.stored,fun _ => envpLoop_public henvp⟩

/-- An operation that stores public properties only keeps the device clean. -/
theorem Clean.change {d' : Device} (h : Clean d) (hchange : Device.Change Public d d') : Clean d' := by
  cases hchange with
  | sync => exact h.sync
  | propertiesEnvp => exact h.propertiesEnvp
  | setProperty key value => exact h.setProperty key value
  | markStored key hkey => exact h.markStored hkey
  | deleteProperty key => exact h.deleteProperty key
  | addTag tag =>
    unfold Device.addTag
    split_ifs
    · exact h
    · exact ⟨h.sorted,h.stored,h.envp⟩
  | _ => exact ⟨h.sorted,h.stored,h.envp⟩

end Clean

section Public

variable {d : Device}

theorem filter_add {l : UdevList} (h : l.Sorted) {name : CString} (hname : Public name) (value : Option CString) :
    (l.add name value).filter (fun e => Public e.name) = UdevList.add name value (l.filter fun e => Public e.name) := by
  refine (UdevList.Sorted.filter (h.add name value) _).ext ((h.filter _).add name value) ?_
  have hget : UdevList.getByName (l.filter fun e => Public e.name) name = l.getByName name := by
    unfold UdevList.getByName
    rw [List.find?_filter]
    congr 1
    funext e
    by_cases he : e.name = name
    · simp [he,hname]
    · simp [he]
  intro e
  rw [(h.filter _).mem_add,List.mem_filter,h.mem_add,hget,List.mem_filter]
  constructor
  · rintro ⟨he | ⟨he,hne⟩,hpublic⟩
    · exact Or.inl he
    · exact Or.inr ⟨⟨he,hpublic⟩,hne⟩
  · rintro (he | ⟨⟨he,hpublic⟩,hne⟩)
    · exact ⟨Or.inl he,by simpa [he] using hname⟩
    · exact ⟨Or.inr ⟨he,hne⟩,hpublic⟩

theorem withoutPrivate_setProperty (h : d.propertiesList.Sorted) {key : CString} (hkey : Public key)
    (value : CString) : withoutPrivate (d.setProperty key value) = (withoutPrivate d).setProperty key value := by
  unfold withoutPrivate setProperty
  dsimp only
  rw [filter_add h hkey]

theorem withoutPrivate_sync (h : Clean d) : withoutPrivate d.sync = (withoutPrivate d).sync := by
  have hlinks : withoutPrivate d.syncDevlinks = (withoutPrivate d).syncDevlinks := by
    unfold syncDevlinks
    by_cases huptodate : d.devlinksUptodate = true
    · rw [if_pos huptodate,if_pos (show (withoutPrivate d).devlinksUptodate = true from huptodate)]
    · rw [if_neg huptodate,if_neg (show ¬(withoutPrivate d).devlinksUptodate = true from huptodate)]
      by_cases hnil : d.devlinksList = []
      · rw [if_pos hnil,if_pos (show (withoutPrivate d).devlinksList = [] from hnil)]
        rfl
      · rw [if_neg hnil,if_neg (show ¬(withoutPrivate d).devlinksList = [] from hnil)]
        exact withoutPrivate_setProperty (d := { d with devlinksUptodate := true }) h.sorted (by decide) _
  have htags : ∀ d : Device, d.propertiesList.Sorted → withoutPrivate d.syncTags = (withoutPrivate d).syncTags := by
    intro d h
    unfold syncTags
    by_cases huptodate : d.tagsUptodate = true
    · rw [if_pos huptodate,if_pos (show (withoutPrivate d).tagsUptodate = true from huptodate)]
    · rw [if_neg huptodate,if_neg (show ¬(withoutPrivate d).tagsUptodate = true from huptodate)]
      by_cases hnil : d.tagsList = []
      · rw [if_pos hnil,if_pos (show (withoutPrivate d).tagsList = [] from hnil)]
        rfl
      · rw [if_neg hnil,if_neg (show ¬(withoutPrivate d).tagsList = [] from hnil)]
        exact withoutPrivate_setProperty (d := { d with tagsUptodate := true }) h (by decide) _
  rw [Device.sync,htags _ h.syncDevlinks.sorted,hlinks,Device.sync]

theorem stored_withoutPrivate (h : Clean d) :
    stored (withoutPrivate d).sync.propertiesList = stored d.sync.propertiesList := by
  rw [← withoutPrivate_sync h]
  unfold withoutPrivate stored
  dsimp only
  rw [List.filter_filter]
  refine List.filter_congr ?_
  intro e he
  by_cases hpublic : Public e.name
  · simp [hpublic]
  · simp [hpublic,h.sync.stored e he hpublic]

/-- The database has nothing of the private properties of a clean device. -/
theorem updateDb_withoutPrivate (h : Clean d) : updateDb (withoutPrivate d) = updateDb d := by
  have hstored := stored_withoutPrivate h
  have hinfo : hasInfo (withoutPrivate d) = hasInfo d := by
    unfold hasInfo
    rw [hstored]
    rfl
  have hlines : dbLines (withoutPrivate d) = dbLines d := by
    unfold dbLines
    rw [hstored]
    rfl
  unfold updateDb
  rw [hinfo,hlines]
  rfl

theorem monitorBuf_withoutPrivate (h : Clean d) :
    SocketFilter.monitorBuf (withoutPrivate d) = SocketFilter.monitorBuf d := by
  have hloop : envpLoop (withoutPrivate d).sync.propertiesList 0 4096 = envpLoop d.sync.propertiesList 0 4096 := by
    rw [← withoutPrivate_sync h]
    exact envpLoop_filter _ 0 4096
  have henvp : (withoutPrivate d).propertiesEnvp.1 = d.propertiesEnvp.1 := by
    unfold Device.propertiesEnvp
    by_cases huptodate : d.envpUptodate = true
    · rw [if_pos huptodate,if_pos (show (withoutPrivate d).envpUptodate = true from huptodate)]
      rfl
    · rw [if_neg huptodate,if_neg (show ¬(withoutPrivate d).envpUptodate = true from huptodate)]
      simp only [hloop]
      cases envpLoop d.sync.propertiesList 0 4096 <;> rfl
  unfold SocketFilter.monitorBuf
  rw [henvp]

theorem not_prefix_dbLine {key : Char} {val : CString} (h : chr key = chr 'E' → Public val) :
    ¬str "E:." <+: dbLine key val := by
  rintro ⟨rest,hrest⟩
  have hkey : chr 'E' = chr key := (List.cons.inj hrest).1
  have hval : chr '.'::rest = val := (List.cons.inj (List.cons.inj hrest).2).2
  exact h hkey.symm (by rw [← hval]; rfl)

theorem Clean.dbLines (h : Clean d) : ∀ line ∈ Database.dbLines d, ¬str "E:." <+: line := by
  have hother : ∀ key : Char, chr key ≠ chr 'E' → ∀ val : CString, ¬str "E:." <+: dbLine key val :=
    fun key hne val => not_prefix_dbLine fun heq => absurd heq hne
  have hif : ∀ (p : Prop) [Decidable p] (key : Char) (val : CString), chr key ≠ chr 'E' →
      ∀ line ∈ if p then [dbLine key val] else [], ¬str "E:." <+: line := by
    intro p _ key val hne line hline
    split_ifs at hline
    · rw [List.mem_singleton.mp hline]
      exact hother key hne val
    · cases hline
  have hmap : ∀ (l : UdevList) (key : Char) (val : ListEntry → CString), chr key ≠ chr 'E' →
      ∀ line ∈ l.map fun e => dbLine key (val e), ¬str "E:." <+: line := by
    intro l key val hne line hline
    obtain ⟨e,-,rfl⟩ := List.mem_map.mp hline
    exact hother key hne _
  intro line hline
  unfold Database.dbLines at hline
  rcases List.mem_append.mp hline with hline | htag
  · rcases List.mem_append.mp hline with hline | hproperty
    · rcases List.mem_append.mp hline with hnode | husec
      · by_cases hmajor : major d.devnum > 0
        · rw [if_pos hmajor] at hnode
          rcases List.mem_append.mp hnode with hnode | hwatch
          · rcases List.mem_append.mp hnode with hlink | hprio
            · exact hmap _ 'S' _ (by decide) line hlink
            · exact hif _ 'L' _ (by decide) line hprio
          · exact hif _ 'W' _ (by decide) line hwatch
        · rw [if_neg hmajor] at hnode
          cases hnode
      · exact hif _ 'I' _ (by decide) line husec
    · obtain ⟨e,he,rfl⟩ := List.mem_map.mp hproperty
      obtain ⟨he,hnum⟩ := List.mem_filter.mp he
      refine not_prefix_dbLine fun _ => public_append ?_ _
      by_contra hprivate
      simp [h.sync.stored e he hprivate] at hnum
  · exact hmap _ 'G' _ (by decide) line htag

theorem Clean.public_envp (h : Clean d) {envp : List CString} (henvp : d.propertiesEnvp.1 = some envp) :
    ∀ s ∈ envp, Public s := by
  unfold Device.propertiesEnvp at henvp
  split_ifs at henvp with huptodate
  · cases henvp
    exact h.envp huptodate
  · dsimp only at henvp
    split at henvp
    · cases henvp
    · next hloop =>
      cases henvp
      exact envpLoop_public hloop

end Public

section Runs

variable {σ : Type} {h : Host σ} {ts : List Token} {ev : Event} {s : σ}

/-- The device has no stored private property when the rules are applied to it, and no token
of the run imports one that is there from the database or the command line. -/
structure Guarded (h : Host σ) (ts : List Token) (ev : Event) (s : σ) : Prop where
  clean : Clean ev.dev
  imports : ∀ c ∈ applyVisits h ts ev s, ∀ k, ts[c.cur]? = some (.key k) → ¬ImportsPrivate h (c.state.elapse h) k

theorem Guarded.visits (hg : Guarded h ts ev s) {c : Config σ} (hc : c ∈ applyVisits h ts ev s) :
    Clean c.state.event.dev := by
  have hstep : ∀ c c' : Config σ, Clean c.state.event.dev →
      (∀ k, ts[c.cur]? = some (.key k) → ¬ImportsPrivate h (c.state.elapse h) k) →
      step h ts (canSetName ev) c = some c' → Clean c'.state.event.dev := by
    intro c c' hclean himports hstep
    have hevolves := step_evolves (fun _ => id) hstep fun k hk hprivate => absurd hprivate (himports k hk)
    exact hevolves.invariant (fun _ _ hchange hd => hd.change hchange) hclean
  exact visits_invariant_of_mem hstep hg.clean hg.imports hc

theorem applyToEvent_mem (h : Host σ) (ts : List Token) (ev : Event) (s : σ) :
    ∃ c ∈ applyVisits h ts ev s, applyToEvent h ts ev s = c.state.event := by
  cases hlast : (applyVisits h ts ev s).getLast? with
  | none => exact absurd (List.getLast?_eq_none_iff.mp hlast) (visits_ne_nil _ _)
  | some c => exact ⟨c,List.mem_of_getLast? hlast,by simp [applyToEvent,hlast]⟩

theorem Guarded.result (hg : Guarded h ts ev s) : Clean (applyToEvent h ts ev s).dev := by
  obtain ⟨c,hc,heq⟩ := applyToEvent_mem h ts ev s
  rw [heq]
  exact hg.visits hc

end Runs

/-- Private properties are not in the database, the environment and the message at any time,
and runs that differ in nothing else have the same database and the same message. -/
theorem private_properties_hidden {σ₁ σ₂ : Type} {h₁ : Host σ₁} {h₂ : Host σ₂} {ts₁ ts₂ : List Token}
    {ev₁ ev₂ : Event} {s₁ : σ₁} {s₂ : σ₂} (hg₁ : Guarded h₁ ts₁ ev₁ s₁) (hg₂ : Guarded h₂ ts₂ ev₂ s₂) :
    (∀ c ∈ applyVisits h₁ ts₁ ev₁ s₁,
      (∀ line ∈ dbLines c.state.event.dev, ¬str "E:." <+: line) ∧
      (∀ envp, c.state.event.dev.propertiesEnvp.1 = some envp → ∀ string ∈ envp, ¬str "." <+: string) ∧
      updateDb c.state.event.dev = updateDb (withoutPrivate c.state.event.dev) ∧
      SocketFilter.monitorBuf c.state.event.dev = SocketFilter.monitorBuf (withoutPrivate c.state.event.dev)) ∧
    (withoutPrivate (applyToEvent h₁ ts₁ ev₁ s₁).dev = withoutPrivate (applyToEvent h₂ ts₂ ev₂ s₂).dev →
      updateDb (applyToEvent h₁ ts₁ ev₁ s₁).dev = updateDb (applyToEvent h₂ ts₂ ev₂ s₂).dev ∧
      SocketFilter.monitorBuf (applyToEvent h₁ ts₁ ev₁ s₁).dev =
        SocketFilter.monitorBuf (applyToEvent h₂ ts₂ ev₂ s₂).dev) := by
  constructor
  · intro c hc
    have hclean := hg₁.visits hc
    refine ⟨hclean.dbLines,?_,(updateDb_withoutPrivate hclean).symm,(monitorBuf_withoutPrivate hclean).symm⟩
    rintro envp henvp string hstring ⟨rest,rfl⟩
    exact hclean.public_envp henvp _ hstring rfl
  · intro hsame
    rw [← updateDb_withoutPrivate hg₁.result,← monitorBuf_withoutPrivate hg₁.result,hsame]
    exact ⟨updateDb_withoutPrivate hg₂.result,monitorBuf_withoutPrivate hg₂.result⟩

theorem guarded_of_types {σ : Type} (h : Host σ) {ts : List Token} (ev : Event) (s : σ) (hclean : Clean ev.dev)
    (hts : ∀ t ∈ ts, ∀ k, t = .key k → k.type ≠ .mImportDb ∧ k.type ≠ .mImportCmdline) : Guarded h ts ev s where
  clean := hclean
  imports := by
    intro c _ k hk himports
    obtain ⟨hdb,hcmdline⟩ := hts _ (List.mem_of_getElem? hk) k rfl
    rcases himports.2 with ⟨htype,-⟩ | ⟨htype,-⟩
    · exact hdb htype
    · exact hcmdline htype

theorem clean_empty (d : Device) (hlist : d.propertiesList = []) (henvp : d.envpUptodate = false) : Clean d where
  sorted := by rw [hlist]; exact List.Pairwise.nil
  stored := by simp [hlist]
  envp := by simp [henvp]

/-- A private property with some value and a public one. -/
def privateRules (value : String) : List (Option (List UInt8)) :=
  [some (str "ENV\x7b.x\x7d=\"" ++ str value ++ str "\"\nENV\x7bID\x7d=\"7\"\n")]

def privateTokens (value : String) : List Token :=
  [.rule { tokenCount := 2 },.key (newKey .aEnv .opAssign (some (str value)) (.attr (str ".x"))),
   .rule { tokenCount := 2 },.key (newKey .aEnv .opAssign (some (str "7")) (.attr (str "ID"))),.tkEnd]

theorem guarded_privateTokens (value : String) :
    Guarded emptyHost (privateTokens value) { dev := { devnum := 0x800 } } () := by
  refine guarded_of_types _ _ _ (clean_empty _ rfl rfl) ?_
  intro t ht k hk
  simp only [privateTokens,List.mem_cons,List.not_mem_nil,or_false] at ht
  rcases ht with rfl | rfl | rfl | rfl | rfl <;> cases hk <;> exact ⟨by simp [newKey],by simp [newKey]⟩

set_option maxRecDepth 8000 in
theorem private_properties_hidden_values :
    (applyToEvent emptyHost (rulesLoad plainOptions (privateRules "1")) { dev := { devnum := 0x800 } } ()).dev.lookup
      (str ".x") = some (str "1") ∧
    (applyToEvent emptyHost (rulesLoad plainOptions (privateRules "2")) { dev := { devnum := 0x800 } } ()).dev.lookup
      (str ".x") = some (str "2") ∧
    updateDb
      (applyToEvent emptyHost (rulesLoad plainOptions (privateRules "1")) { dev := { devnum := 0x800 } } ()).dev =
    updateDb
      (applyToEvent emptyHost (rulesLoad plainOptions (privateRules "2")) { dev := { devnum := 0x800 } } ()).dev := by
  have hload₁ : rulesLoad plainOptions (privateRules "1") = privateTokens "1" := by decide
  have hload₂ : rulesLoad plainOptions (privateRules "2") = privateTokens "2" := by decide
  rw [hload₁,hload₂]
  refine ⟨by decide,by decide,?_⟩
  exact ((private_properties_hidden (guarded_privateTokens "1") (guarded_privateTokens "2")).2 (by decide)).1

/-- A word of the command line with a private name. -/
def cmdlineHost : Host Unit :=
  { emptyHost with
    readFile := fun _ path => if path = str "/proc/cmdline" then some (str "quiet .x=1\n") else none }

def cmdlineRules : List (Option (List UInt8)) := [some (str "IMPORT\x7bcmdline\x7d=\".x\"\n")]

set_option maxRecDepth 8000 in
/-- The private property goes to the database. -/
theorem cmdline_import_stored :
    dbLines (applyToEvent cmdlineHost (rulesLoad plainOptions cmdlineRules) { dev := { devnum := 0x800 } } ()).dev =
      [str "E:.x=1"] ∧
    updateDb (applyToEvent cmdlineHost (rulesLoad plainOptions cmdlineRules) { dev := { devnum := 0x800 } } ()).dev =
      some (str "E:.x=1\n") := by
  decide

end Rules
end Udev
