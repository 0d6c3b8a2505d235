import Mathlib.Data.List.Infix
import Mathlib.Logic.Function.Basic

/-! Files and directories by the names on the way to them. A name that is looked up may go up or stay,
so the step of a lookup is a parameter, and with it which names a directory can have. -/
namespace Udev

inductive Node
  | file | dir
  deriving DecidableEq, Repr

abbrev FileTree (α : Type) := List α → Option Node

namespace FileTree

variable {α : Type} [DecidableEq α]

def IsDir (fs : FileTree α) (path : List α) : Prop := path = [] ∨ fs path = some .dir

instance (fs : FileTree α) (path : List α) : Decidable (IsDir fs path) := inferInstanceAs (Decidable (_ ∨ _))

section Operations

variable (enter : List α → α → List α) (valid : α → Bool)

def walk (fs : FileTree α) : List α → List α → Option (List α)
  | dir, [] => some dir
  | dir, c::cs => if valid c ∧ IsDir fs (enter dir c) then walk fs (enter dir c) cs else none

def mkdir (fs : FileTree α) (path : List α) : Option (FileTree α) :=
  if IsDir fs path then some fs
  else if fs path = none then some (Function.update fs path (some .dir))
  else none

/-- The directories on the way are made, up to the first that cannot be made. -/
def mkdirs : FileTree α → List α → List α → FileTree α
  | fs, _, [] => fs
  | fs, dir, c::cs =>
    if valid c then (mkdir fs (enter dir c)).elim fs fun fs => mkdirs fs (enter dir c) cs else fs

def create (fs : FileTree α) (dirs : List α) (c : α) : FileTree α :=
  (walk enter valid fs [] dirs).elim fs fun dir =>
    if valid c ∧ ¬IsDir fs (enter dir c) then Function.update fs (enter dir c) (some .file) else fs

def unlink (fs : FileTree α) (dirs : List α) (c : α) : FileTree α :=
  (walk enter valid fs [] dirs).elim fs fun dir =>
    if valid c ∧ fs (enter dir c) = some .file then Function.update fs (enter dir c) none else fs

def Plain (c : α) : Prop := valid c = true ∧ ∀ dir, enter dir c = dir ++ [c]

end Operations

structure Free (fs : FileTree α) (dirs : List α) (c : α) : Prop where
  way : ∀ dir ∈ dirs.inits, fs dir ≠ some .file
  file : fs (dirs ++ [c]) ≠ some .dir

instance (fs : FileTree α) (dirs : List α) (c : α) : Decidable (Free fs dirs c) :=
  decidable_of_iff ((∀ dir ∈ dirs.inits, fs dir ≠ some .file) ∧ fs (dirs ++ [c]) ≠ some .dir)
    ⟨fun h => ⟨h.1,h.2⟩,fun h => ⟨h.way,h.file⟩⟩

def Reached (fs : FileTree α) (dirs : List α) : Prop := ∀ dir ∈ dirs.inits, IsDir fs dir

variable {enter : List α → α → List α} {valid : α → Bool} {fs : FileTree α} {dirs : List α} {c : α}

omit [DecidableEq α] in
theorem walk_plain (base : List α) (hplain : ∀ a ∈ dirs, Plain enter valid a) (h : ∀ pre, pre <+: dirs → IsDir fs (base ++ pre)) :
    walk enter valid fs base dirs = some (base ++ dirs) := by
  induction dirs generalizing base with
  | nil => simp [walk]
  | cons a dirs ih =>
    obtain ⟨hvalid,henter⟩ := hplain a List.mem_cons_self
    have hdir : IsDir fs (base ++ [a]) := h [a] (by simp)
    rw [walk,henter,if_pos ⟨hvalid,hdir⟩,ih _ fun b hb => hplain b (List.mem_cons_of_mem _ hb)]
    · simp
    · intro pre hpre
      have := h (a::pre) (by simpa using hpre)
      simpa using this

/-- Where no file is in the way, all directories are made and nothing else. -/
theorem mkdirs_plain (base : List α) (hplain : ∀ a ∈ dirs, Plain enter valid a)
    (h : ∀ pre, pre <+: dirs → pre ≠ [] → fs (base ++ pre) ≠ some .file) :
    (∀ pre, pre <+: dirs → pre ≠ [] → mkdirs enter valid fs base dirs (base ++ pre) = some .dir) ∧
      ∀ p, mkdirs enter valid fs base dirs p = fs p ∨
        mkdirs enter valid fs base dirs p = some .dir ∧ ∃ pre, pre <+: dirs ∧ pre ≠ [] ∧ p = base ++ pre := by
  induction dirs generalizing fs base with
  | nil => exact ⟨fun pre hpre hne => absurd (List.prefix_nil.mp hpre) hne,fun p => Or.inl rfl⟩
  | cons a dirs ih =>
    obtain ⟨hvalid,henter⟩ := hplain a List.mem_cons_self
    have hfirst := h [a] (by simp) (by simp)
    obtain ⟨fs',hmk,hdir,hframe⟩ : ∃ fs', mkdir fs (base ++ [a]) = some fs' ∧ fs' (base ++ [a]) = some .dir ∧
        ∀ p, p ≠ base ++ [a] → fs' p = fs p := by
      unfold mkdir
      by_cases hd : IsDir fs (base ++ [a])
      · refine ⟨fs,if_pos hd,hd.resolve_left (by simp),fun _ _ => rfl⟩
      · have hnone : fs (base ++ [a]) = none := by
          cases hn : fs (base ++ [a]) with
          | none => rfl
          | some n =>
            cases n with
            | file => exact absurd hn hfirst
            | dir => exact absurd (Or.inr hn) hd
        exact ⟨_,by rw [if_neg hd,if_pos hnone],Function.update_self ..,fun p hp => Function.update_of_ne hp ..⟩
    have hrun : mkdirs enter valid fs base (a::dirs) = mkdirs enter valid fs' (base ++ [a]) dirs := by
      rw [mkdirs,if_pos hvalid,henter,hmk]
      rfl
    rw [hrun]
    have hfree : ∀ pre, pre <+: dirs → pre ≠ [] → fs' (base ++ [a] ++ pre) ≠ some .file := by
      intro pre hpre hne
      rw [hframe _ (by simpa using hne)]
      have := h (a::pre) (by simpa using hpre) (by simp)
      simpa using this
    obtain ⟨hmade,hrest⟩ := ih _ (fun b hb => hplain b (List.mem_cons_of_mem _ hb)) hfree
    constructor
    · intro pre hpre hne
      cases pre with
      | nil => exact absurd rfl hne
      | cons b pre =>
        obtain ⟨rfl,hpre'⟩ := List.cons_prefix_cons.mp hpre
        cases pre with
        | nil =>
          rcases hrest (base ++ [b]) with heq | ⟨heq,-⟩
          · exact heq.trans hdir
          · exact heq
        | cons x pre =>
          have := hmade (x::pre) hpre' (by simp)
          simpa using this
    · intro p
      rcases hrest p with heq | ⟨heq,pre,hpre,hne,rfl⟩
      · by_cases hp : p = base ++ [a]
        · exact Or.inr ⟨heq.trans (hp ▸ hdir),[a],by simp,by simp,hp⟩
        · exact Or.inl (heq.trans (hframe p hp))
      · exact Or.inr ⟨heq,a::pre,by simpa using hpre,by simp,by simp⟩

/-- A file that nothing is in the way of is made, with the directories on its way. -/
theorem create_mkdirs (hdirs : ∀ a ∈ dirs, Plain enter valid a) (hc : Plain enter valid c) (h : Free fs dirs c) :
    create enter valid (mkdirs enter valid fs [] dirs) dirs c (dirs ++ [c]) = some .file ∧
      Reached (create enter valid (mkdirs enter valid fs [] dirs) dirs c) dirs ∧
      ∀ p, create enter valid (mkdirs enter valid fs [] dirs) dirs c p = fs p ∨ p = dirs ++ [c] ∨
        create enter valid (mkdirs enter valid fs [] dirs) dirs c p = some .dir ∧ p <+: dirs := by
  obtain ⟨hmade,hrest⟩ := mkdirs_plain [] hdirs fun pre hpre _ => h.way pre ((List.mem_inits pre dirs).mpr hpre)
  simp only [List.nil_append] at hmade hrest
  generalize mkdirs enter valid fs [] dirs = made at hmade hrest ⊢
  have hself : ¬dirs ++ [c] <+: dirs := fun hpre => by
    have hlen := hpre.length_le
    rw [List.length_append,List.length_singleton] at hlen
    omega
  have hwalk : walk enter valid made [] dirs = some dirs := walk_plain [] hdirs fun pre hpre => by
    by_cases hne : pre = []
    · exact Or.inl hne
    · exact Or.inr (hmade pre hpre hne)
  have hfile : ¬IsDir made (dirs ++ [c]) := by
    rintro (hnil | hdir)
    · simp at hnil
    · rcases hrest (dirs ++ [c]) with heq | ⟨-,pre,hpre,-,heq⟩
      · exact h.file (heq.symm.trans hdir)
      · exact hself (heq ▸ hpre)
  have hcreate : create enter valid made dirs c = Function.update made (dirs ++ [c]) (some .file) := by
    rw [create,hwalk,Option.elim_some,hc.2,if_pos ⟨hc.1,hfile⟩]
  rw [hcreate]
  refine ⟨Function.update_self ..,?_,?_⟩
  · intro dir hdir
    have hpre := (List.mem_inits dir dirs).mp hdir
    by_cases hne : dir = []
    · exact Or.inl hne
    · refine Or.inr ?_
      rw [Function.update_of_ne fun heq : dir = dirs ++ [c] => hself (heq ▸ hpre)]
      exact hmade dir hpre hne
  · intro p
    by_cases hp : p = dirs ++ [c]
    · exact Or.inr (Or.inl hp)
    · rw [Function.update_of_ne hp]
      rcases hrest p with heq | ⟨heq,pre,hpre,-,rfl⟩
      · exact Or.inl heq
      · exact Or.inr (Or.inr ⟨heq,hpre⟩)

theorem unlink_cases (fs : FileTree α) (dirs : List α) (c : α) (p : List α) :
    unlink enter valid fs dirs c p = fs p ∨ unlink enter valid fs dirs c p = none ∧ fs p = some .file := by
  unfold unlink
  cases walk enter valid fs [] dirs with
  | none => exact Or.inl rfl
  | some dir =>
    rw [Option.elim_some]
    split_ifs with hfile
    · by_cases hp : p = enter dir c
      · exact Or.inr ⟨hp ▸ Function.update_self ..,hp ▸ hfile.2⟩
      · exact Or.inl (Function.update_of_ne hp ..)
    · exact Or.inl rfl

theorem unlink_self (hdirs : ∀ a ∈ dirs, Plain enter valid a) (hc : Plain enter valid c) (h : Reached fs dirs) :
    unlink enter valid fs dirs c (dirs ++ [c]) ≠ some .file := by
  have hwalk : walk enter valid fs [] dirs = some dirs :=
    walk_plain [] hdirs fun pre hpre => h pre ((List.mem_inits pre dirs).mpr hpre)
  rw [unlink,hwalk,Option.elim_some,hc.2]
  split_ifs with hfile
  · rw [Function.update_self]
    simp
  · exact fun hf => hfile ⟨hc.1,hf⟩

end FileTree
end Udev
