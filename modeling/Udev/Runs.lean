import Mathlib.Data.List.Basic

/-! Runs of a partial step function under a condition on each step.
A run is the list of its actions; the condition is tested in the state in
which the action is taken, so an environment assumption needs no ghost trace. -/
namespace Udev
namespace Runs

variable {σ α : Type*}

def run (step : σ → α → Option σ) : σ → List α → Option σ
  | s, [] => some s
  | s, a::as => (step s a).bind fun t => run step t as

/-- Every action of the run meets `ok` in the state in which it is taken. -/
def Along (step : σ → α → Option σ) (ok : σ → α → Prop) : σ → List α → Prop
  | _, [] => True
  | s, a::as => ok s a ∧ (step s a).elim True fun t => Along step ok t as

instance decidableAlong (step : σ → α → Option σ) (ok : σ → α → Prop)
    [∀ s a, Decidable (ok s a)] (s : σ) : (as : List α) → Decidable (Along step ok s as)
  | [] => isTrue trivial
  | a::as =>
    match h : step s a with
    | none => decidable_of_iff (ok s a) (by simp [Along,h])
    | some t =>
      haveI := decidableAlong step ok t as
      decidable_of_iff (ok s a ∧ Along step ok t as) (by simp [Along,h])

variable {step : σ → α → Option σ} {ok : σ → α → Prop}

@[simp] theorem run_nil (s : σ) : run step s [] = some s := rfl

theorem run_cons_some {s u : σ} {a : α} {as : List α} :
    run step s (a::as) = some u ↔ ∃ t, step s a = some t ∧ run step t as = some u := by
  simp [run,Option.bind_eq_some_iff]

theorem run_append (s : σ) (as bs : List α) :
    run step s (as++bs) = (run step s as).bind fun t => run step t bs := by
  induction as generalizing s with
  | nil => rfl
  | cons a as ih => cases h : step s a <;> simp [run,h,ih]

theorem along_of_forall (ok : σ → α → Prop) {as : List α} (h : ∀ a ∈ as, ∀ s, ok s a) (s : σ) : Along step ok s as := by
  induction as generalizing s with
  | nil => trivial
  | cons a as ih =>
    refine ⟨h a List.mem_cons_self s,?_⟩
    cases hs : step s a with
    | none => trivial
    | some t => exact ih (fun b hb => h b (List.mem_cons_of_mem a hb)) t

theorem along_cons {s t : σ} {a : α} {as : List α} (h : step s a = some t)
    (ha : Along step ok s (a::as)) : ok s a ∧ Along step ok t as := by
  simpa [Along,h] using ha

theorem along_true (s : σ) (as : List α) : Along step (fun _ _ => True) s as := by
  induction as generalizing s with
  | nil => trivial
  | cons a as ih => cases h : step s a <;> simp [Along,h,ih]

/-- What one step preserves under the condition, a whole run preserves. -/
theorem run_invariant (Inv : σ → Prop)
    (hstep : ∀ s a t, Inv s → ok s a → step s a = some t → Inv t)
    {s u : σ} {as : List α} (hs : Inv s) (hok : Along step ok s as)
    (hrun : run step s as = some u) : Inv u := by
  induction as generalizing s with
  | nil => simpa using (Option.some.inj hrun) ▸ hs
  | cons a as ih =>
    obtain ⟨t,ht,hu⟩ := run_cons_some.mp hrun
    obtain ⟨ha,has⟩ := along_cons ht hok
    exact ih (hstep s a t hs ha ht) has hu

theorem along_mono (Inv : σ → Prop) {ok' : σ → α → Prop}
    (hstep : ∀ s a t, Inv s → ok s a → step s a = some t → Inv t) (himp : ∀ s a, Inv s → ok s a → ok' s a)
    {s : σ} {as : List α} (hs : Inv s) (h : Along step ok s as) : Along step ok' s as := by
  induction as generalizing s with
  | nil => trivial
  | cons a as ih =>
    constructor
    · exact himp s a hs h.1
    · cases ht : step s a with
      | none => trivial
      | some t =>
        obtain ⟨ha,has⟩ := along_cons ht h
        exact ih (hstep s a t hs ha ht) has

theorem along_append {s t : σ} {as bs : List α} (hrun : run step s as = some t)
    (ha : Along step ok s as) (hb : Along step ok t bs) : Along step ok s (as++bs) := by
  induction as generalizing s with
  | nil => exact Option.some.inj hrun ▸ hb
  | cons a as ih =>
    obtain ⟨u,hu,hrun⟩ := run_cons_some.mp hrun
    obtain ⟨hok,has⟩ := along_cons hu ha
    refine ⟨hok,?_⟩
    rw [hu,Option.elim_some]
    exact ih hrun has

section Translation

variable {τ β : Type*} {step' : τ → β → Option τ} {ok' : τ → β → Prop} {acts : σ → α → List β}

def trace (step : σ → α → Option σ) (acts : σ → α → List β) : σ → List α → List β
  | _, [] => []
  | s, a::as => acts s a ++ (step s a).elim [] fun t => trace step acts t as

theorem run_trace (proj : σ → τ)
    (hstep : ∀ s a t, step s a = some t → run step' (proj s) (acts s a) = some (proj t))
    {s t : σ} {as : List α} (hrun : run step s as = some t) :
    run step' (proj s) (trace step acts s as) = some (proj t) := by
  induction as generalizing s with
  | nil => exact Option.some.inj hrun ▸ rfl
  | cons a as ih =>
    obtain ⟨u,hu,hrun⟩ := run_cons_some.mp hrun
    rw [trace,run_append,hstep s a u hu,Option.bind_some,hu,Option.elim_some]
    exact ih hrun

/-- A condition on the other system that an invariant gives for each step holds along
the whole run. -/
theorem along_trace (proj : σ → τ) (Inv : σ → Prop)
    (hstep : ∀ s a t, step s a = some t → run step' (proj s) (acts s a) = some (proj t))
    (hinv : ∀ s a t, Inv s → ok s a → step s a = some t →
      Inv t ∧ Along step' ok' (proj s) (acts s a))
    {s t : σ} {as : List α} (hs : Inv s) (hok : Along step ok s as) (hrun : run step s as = some t) :
    Along step' ok' (proj s) (trace step acts s as) := by
  induction as generalizing s with
  | nil => trivial
  | cons a as ih =>
    obtain ⟨u,hu,hrun⟩ := run_cons_some.mp hrun
    obtain ⟨ha,has⟩ := along_cons hu hok
    obtain ⟨hinvu,halong⟩ := hinv s a u hs ha hu
    rw [trace,hu,Option.elim_some]
    exact along_append (hstep s a u hu) halong (ih hinvu has hrun)

end Translation

section Visits

variable {step : σ → Option σ} {Inv : σ → Prop} {pc : σ → ℕ}

/-- The states of a deterministic run, at most `n` after the first. -/
def visits (step : σ → Option σ) : ℕ → σ → List σ
  | 0, s => [s]
  | n+1, s => s::(step s).elim [] (visits step n)

theorem visits_invariant (hstep : ∀ s t, Inv s → step s = some t → Inv t) {n : ℕ} {s t : σ}
    (hs : Inv s) (ht : t ∈ visits step n s) : Inv t := by
  induction n generalizing s with
  | zero => exact List.mem_singleton.mp ht ▸ hs
  | succ n ih =>
    rcases List.mem_cons.mp ht with rfl | ht
    · exact hs
    · cases hst : step s with
      | none => simp [hst] at ht
      | some u => exact ih (hstep s u hs hst) (by simpa [hst] using ht)

theorem visits_invariant_of_mem {ok : σ → Prop} (hstep : ∀ s t, Inv s → ok s → step s = some t → Inv t)
    {n : ℕ} {s t : σ} (hs : Inv s) (hok : ∀ u ∈ visits step n s, ok u) (ht : t ∈ visits step n s) : Inv t := by
  induction n generalizing s with
  | zero => exact List.mem_singleton.mp ht ▸ hs
  | succ n ih =>
    rcases List.mem_cons.mp ht with rfl | ht
    · exact hs
    · cases hst : step s with
      | none => simp [hst] at ht
      | some u =>
        refine ih (hstep s u hs (hok s List.mem_cons_self) hst) ?_ (by simpa [hst] using ht)
        intro v hv
        exact hok v (List.mem_cons_of_mem _ (by simpa [hst] using hv))

theorem visits_ne_nil (n : ℕ) (s : σ) : visits step n s ≠ [] := by cases n <;> simp [visits]

theorem visits_increasing (hstep : ∀ s t, Inv s → step s = some t → Inv t ∧ pc s < pc t) {n : ℕ} {s : σ}
    (hs : Inv s) :
    (visits step n s).Pairwise (pc · < pc ·) ∧ ∀ t ∈ visits step n s, pc s ≤ pc t := by
  induction n generalizing s with
  | zero => exact ⟨List.pairwise_singleton _ _,fun t ht => (List.mem_singleton.mp ht ▸ Nat.le_refl _)⟩
  | succ n ih =>
    cases hst : step s with
    | none => exact ⟨by simp [visits,hst],by simp [visits,hst]⟩
    | some u =>
      obtain ⟨hu,hlt⟩ := hstep s u hs hst
      obtain ⟨hpair,hle⟩ := ih hu
      simp only [visits,hst,Option.elim_some]
      refine ⟨List.pairwise_cons.mpr ⟨fun t ht => Nat.lt_of_lt_of_le hlt (hle t ht),hpair⟩,fun t ht => ?_⟩
      rcases List.mem_cons.mp ht with rfl | ht
      · exact Nat.le_refl _
      · exact Nat.le_trans (Nat.le_of_lt hlt) (hle t ht)

/-- A bounded counter that grows with each step bounds the length of the run. -/
theorem visits_last (hstep : ∀ s t, Inv s → step s = some t → Inv t ∧ pc s < pc t) {bound : ℕ}
    (hbound : ∀ s, Inv s → pc s < bound) {n : ℕ} {s : σ} (hs : Inv s) (hn : bound ≤ pc s+n) :
    ∃ t, (visits step n s).getLast? = some t ∧ Inv t ∧ step t = none := by
  induction n generalizing s with
  | zero =>
    have := hbound s hs
    omega
  | succ n ih =>
    cases hst : step s with
    | none => exact ⟨s,by simp [visits,hst],hs,hst⟩
    | some u =>
      obtain ⟨hu,hlt⟩ := hstep s u hs hst
      obtain ⟨t,hlast,ht⟩ := ih hu (by omega)
      exact ⟨t,by simp [visits,hst,List.getLast?_cons,hlast],ht⟩

/-- A part of a deterministic run: the states that it leaves, and the last one. -/
inductive Path (step : σ → Option σ) : σ → List σ → σ → Prop
  | nil (s : σ) : Path step s [] s
  | cons {s t u : σ} {l : List σ} (h : step s = some t) (hp : Path step t l u) : Path step s (s::l) u

theorem Path.append {s t u : σ} {l l' : List σ} (h : Path step s l t) (h' : Path step t l' u) :
    Path step s (l++l') u := by
  induction h with
  | nil => exact h'
  | cons hs _ ih => exact .cons hs (ih h')

theorem Path.single {s t : σ} (h : step s = some t) : Path step s [s] t := .cons h (.nil t)

theorem Path.visits {s t : σ} {l : List σ} (h : Path step s l t) (ht : step t = none) {n : ℕ}
    (hn : l.length ≤ n) : visits step n s = l ++ [t] := by
  induction h generalizing n with
  | nil s => cases n <;> simp [Runs.visits,ht]
  | cons hs _ ih =>
    obtain ⟨n,rfl⟩ := Nat.exists_eq_succ_of_ne_zero (by simp at hn; omega : n ≠ 0)
    simp [Runs.visits,hs,ih ht (by simpa using hn)]

theorem Path.length_le (Inv : σ → Prop) (pc : σ → ℕ)
    (hstep : ∀ s t, Inv s → step s = some t → Inv t ∧ pc s < pc t) {s t : σ} {l : List σ}
    (h : Path step s l t) (hs : Inv s) : Inv t ∧ pc s+l.length ≤ pc t := by
  induction h with
  | nil s => exact ⟨hs,Nat.le_refl _⟩
  | cons hst _ ih =>
    obtain ⟨hu,hlt⟩ := hstep _ _ hs hst
    obtain ⟨ht,hle⟩ := ih hu
    exact ⟨ht,by simp only [List.length_cons]; omega⟩

end Visits

end Runs
end Udev
