import Udev.Runs
import Mathlib.Algebra.Ring.Int.Defs
import Mathlib.Logic.Function.Basic

/-! `spawn_wait`: a worker waits on its signals until its child has terminated. What the kernel
does to the child and to the pending signals and what the loop does are steps in any order. -/
namespace Udev
namespace SpawnWait

open Runs

/-- How a process ends: with an exit code, or by a signal. -/
inductive Ending
  | exited (code : UInt8)
  | signaled (sig : Fin 126) (core : Bool)
  deriving DecidableEq, Repr

/-- The `int` that `waitpid` stores for it; the signals are counted from 1. -/
def Ending.status : Ending → ℕ
  | exited code => code.toNat*256
  | signaled sig core => sig.val+1+if core then 128 else 0

def wifexited (status : ℕ) : Bool := status%128 = 0

def wexitstatus (status : ℕ) : ℕ := status/256%256

/-- The part of the loop that reads the status: what `err` becomes. A signal, a stop, a continuation
and any other status are reported with different messages and the same error. -/
def statusErr (status : ℕ) (err : ℤ) : ℤ :=
  if wifexited status then if wexitstatus status ≠ 0 then -1 else err else -1

inductive Child
  | running | stopped | terminated (e : Ending)
  deriving DecidableEq, Repr

/-- The signals that come from `event->fd_signal`. -/
inductive Sig
  | sigterm | sigchld | other
  deriving DecidableEq, Repr

/-- The worker with its child and the pending signals; a signal is pending once, however often it
was sent. `ret` is set when `spawn_wait` returns. -/
structure Waiting where
  child : Child := .running
  pending : Sig → Bool := fun _ => false
  sigterm : Bool := false
  killed : Bool := false
  pollFailed : Bool := false
  ret : Option ℤ := none

def raise (w : Waiting) (sig : Sig) : Waiting := { w with pending := Function.update w.pending sig true }

/-- What can happen: to the child, by a signal from elsewhere, and in one round of the loop by what
`poll` and the reading of a signal give. -/
inductive Act
  | stop | cont | terminate (e : Ending)
  | send (sig : Sig)
  | interrupted
  | pollError (errno : ℕ)
  | timeout
  | shortRead
  | read (sig : Sig) (fails : Bool) (status : ℕ)
  deriving DecidableEq, Repr

/-- A signal that was read. `waitpid` may fail, and does not touch the status that is on the stack when the
child has not terminated. -/
def handle (w : Waiting) (fails : Bool) (status : ℕ) : Sig → Waiting
  | .sigterm => { w with sigterm := true }
  | .other => w
  | .sigchld =>
    if fails then w
    else
      match w.child with
      | .terminated e => { w with ret := some (statusErr e.status 0) }
      | _ => { w with ret := some (statusErr status 0) }

def step (w : Waiting) (a : Act) : Option Waiting :=
  if w.ret.isSome then none
  else
    match a with
    | .stop => if w.child = .running then some (raise { w with child := .stopped } .sigchld) else none
    | .cont => if w.child = .stopped then some (raise { w with child := .running } .sigchld) else none
    | .terminate e =>
      if w.child = .running ∨ w.child = .stopped then some (raise { w with child := .terminated e } .sigchld) else none
    | .send sig => some (raise w sig)
    | .interrupted => some w
    | .pollError errno => if 0 < errno then some { w with pollFailed := true, ret := some (-(errno : ℤ)) } else none
    | .timeout => some { w with killed := true }
    | .shortRead => some w
    | .read sig fails status =>
      if w.pending sig then some (handle { w with pending := Function.update w.pending sig false } fails status sig)
      else none

/-- What the return says: polling failed, or the child has terminated and 0 stands for the exit status 0. -/
def Right (w : Waiting) : Prop :=
  ∀ r, w.ret = some r → w.pollFailed = true ∧ r < 0 ∨ ∃ e, w.child = .terminated e ∧ (r = 0 ↔ e = .exited 0)

def Child.isTerminated : Child → Bool
  | .terminated _ => true
  | _ => false

/-- A SIGCHLD is read when the child has terminated, or `waitpid` fails. -/
def Settled (w : Waiting) : Act → Prop
  | .read .sigchld fails _ => fails = true ∨ w.child.isTerminated = true
  | _ => True

theorem statusErr_ending (e : Ending) : statusErr e.status 0 = 0 ↔ e = .exited 0 := by
  cases e with
  | exited code =>
    have hcode : code.toNat < 256 := code.toNat_lt
    have hzero : code = 0 ↔ code.toNat = 0 := by
      rw [← UInt8.toNat_inj]
      rfl
    have hexit : wexitstatus (Ending.exited code).status = code.toNat := by
      simp only [wexitstatus,Ending.status]
      omega
    have hif : wifexited (Ending.exited code).status = true :=
      decide_eq_true (show code.toNat*256%128 = 0 by omega)
    rw [statusErr,if_pos hif,hexit,Ending.exited.injEq,hzero]
    split_ifs with h
    · exact iff_of_false (by decide) h
    · exact iff_of_true rfl (not_not.mp h)
  | signaled sig core =>
    have hsig := sig.isLt
    have hlow : ¬(sig.val+1+if core then 128 else 0)%128 = 0 := by split_ifs <;> omega
    have hif : ¬wifexited (Ending.signaled sig core).status = true := fun h => hlow (of_decide_eq_true h)
    rw [statusErr,if_neg hif]
    exact iff_of_false (by decide) (by simp)

/-- One step of a worker that waits: it goes on, or it returns because polling failed, because the child
has terminated, or with the status that is on the stack. -/
theorem step_cases {w t : Waiting} {a : Act} (hw : w.ret = none) (h : step w a = some t) :
    (t.ret = none ∧ t.pollFailed = w.pollFailed ∧ Settled w a) ∨
    (∃ errno : ℕ, 0 < errno ∧ a = .pollError errno ∧ t.pollFailed = true ∧ t.ret = some (-(errno : ℤ))) ∨
    ∃ status, a = .read .sigchld false status ∧ t.child = w.child ∧ t.pollFailed = w.pollFailed ∧
      ((∃ e, w.child = .terminated e ∧ t.ret = some (statusErr e.status 0)) ∨
        w.child.isTerminated = false ∧ t.ret = some (statusErr status 0)) := by
  have hnot : ¬w.ret.isSome = true := by
    rw [hw]
    decide
  unfold step at h
  rw [if_neg hnot] at h
  cases a with
  | stop | cont | terminate e =>
    dsimp only at h
    split_ifs at h
    obtain rfl := Option.some.inj h
    exact Or.inl ⟨hw,rfl,trivial⟩
  | send sig | interrupted | timeout | shortRead =>
    obtain rfl := Option.some.inj h
    exact Or.inl ⟨hw,rfl,trivial⟩
  | pollError errno =>
    dsimp only at h
    split_ifs at h with hpos
    obtain rfl := Option.some.inj h
    exact Or.inr (Or.inl ⟨errno,hpos,rfl,rfl,rfl⟩)
  | read sig fails status =>
    dsimp only at h
    split_ifs at h
    obtain rfl := Option.some.inj h
    cases sig with
    | sigterm | other => exact Or.inl ⟨hw,rfl,trivial⟩
    | sigchld =>
      cases fails with
      | true => exact Or.inl ⟨hw,rfl,Or.inl rfl⟩
      | false =>
        refine Or.inr (Or.inr ⟨status,rfl,?_⟩)
        cases hchild : w.child with
        | terminated e => simp [handle]
        | running | stopped => simp [handle,Child.isTerminated]

/-- A worker that returns does it right if and only if the step was settled. -/
theorem step_right {w t : Waiting} {a : Act} (hw : w.ret = none) (hpoll : w.pollFailed = false) (h : step w a = some t) :
    Right t ↔ Settled w a := by
  rcases step_cases hw h with ⟨hret,-,hsettled⟩ | ⟨errno,hpos,rfl,hfailed,hret⟩ | ⟨status,rfl,hchild,hfailed,hcase⟩
  · refine iff_of_true ?_ hsettled
    intro r hr
    rw [hret] at hr
    cases hr
  · refine iff_of_true ?_ trivial
    intro r hr
    obtain rfl := Option.some.inj (hret.symm.trans hr)
    exact Or.inl ⟨hfailed,by omega⟩
  · rcases hcase with ⟨e,hterm,hret⟩ | ⟨hterm,hret⟩
    · refine iff_of_true ?_ (Or.inr (by rw [hterm]; rfl))
      intro r hr
      obtain rfl := Option.some.inj (hret.symm.trans hr)
      exact Or.inr ⟨e,hchild.trans hterm,statusErr_ending e⟩
    · refine iff_of_false ?_ ?_
      · intro hright
        rcases hright _ hret with ⟨hp,-⟩ | ⟨e,he,-⟩
        · rw [hfailed,hpoll] at hp
          cases hp
        · rw [← hchild,he] at hterm
          cases hterm
      · rintro (hfails | hterm')
        · cases hfails
        · rw [hterm] at hterm'
          cases hterm'

/-- In every run from a worker that waits, with any child and any signals left over, it returns right
if and only if each SIGCHLD that it reads comes when the child has terminated, or `waitpid` fails. -/
theorem return_right_iff {w u : Waiting} {as : List Act} (hw : w.ret = none) (hpoll : w.pollFailed = false)
    (hrun : run step w as = some u) : Right u ↔ Along step Settled w as := by
  induction as generalizing w with
  | nil =>
    obtain rfl := Option.some.inj hrun
    refine iff_of_true ?_ trivial
    intro r hr
    rw [hw] at hr
    cases hr
  | cons a as ih =>
    obtain ⟨t,ht,hu⟩ := run_cons_some.mp hrun
    rw [Along,ht,Option.elim_some]
    cases hret : t.ret with
    | none =>
      rcases step_cases hw ht with ⟨-,hsame,hsettled⟩ | ⟨errno,-,-,-,hret'⟩ | ⟨status,-,-,-,hcase⟩
      · rw [ih hret (hsame.trans hpoll) hu,and_iff_right hsettled]
      · rw [hret] at hret'
        cases hret'
      · rcases hcase with ⟨e,-,hret'⟩ | ⟨-,hret'⟩
        · rw [hret] at hret'
          cases hret'
        · rw [hret] at hret'
          cases hret'
    | some r =>
      cases as with
      | nil =>
        obtain rfl := Option.some.inj hu
        rw [step_right hw hpoll ht]
        exact (and_iff_left trivial).symm
      | cons b bs =>
        obtain ⟨v,hv,-⟩ := run_cons_some.mp hu
        simp [step,hret] at hv

/-- A stop of the child is taken for its exit, with the status that is on the stack. -/
theorem stop_returns : ¬∀ as u, run step {} as = some u → Right u := by
  intro h
  rcases h [.stop,.read .sigchld false 0] _ rfl 0 rfl with ⟨hpoll,-⟩ | ⟨e,he,-⟩
  · cases hpoll
  · cases he

/-- A worker that gets a SIGTERM while its child exits with code 3. -/
def exitRun : List Act := [.send .sigterm,.read .sigterm false 0,.terminate (.exited 3),.read .sigchld false 7]

theorem exit_returns : ∃ w, run step {} exitRun = some w ∧ Right w := by
  have hsettled : Along step Settled {} exitRun := ⟨trivial,trivial,trivial,Or.inr rfl,trivial⟩
  obtain ⟨w,hw⟩ : ∃ w, run step {} exitRun = some w := ⟨_,rfl⟩
  exact ⟨w,hw,(return_right_iff rfl rfl hw).mpr hsettled⟩

def OnlyExit (_ : Waiting) : Act → Prop
  | .stop | .cont | .send .sigchld => False
  | _ => True

def ExitPending (w : Waiting) : Prop := w.pending .sigchld = true → w.child.isTerminated = true

theorem step_exitPending {w t : Waiting} {a : Act} (hw : ExitPending w) (ha : OnlyExit w a) (h : step w a = some t) :
    ExitPending t ∧ Settled w a := by
  have hnot : ¬w.ret.isSome = true := by
    intro hret
    unfold step at h
    rw [if_pos hret] at h
    cases h
  unfold step at h
  rw [if_neg hnot] at h
  cases a with
  | stop | cont => exact absurd ha id
  | terminate e =>
    dsimp only at h
    split_ifs at h
    obtain rfl := Option.some.inj h
    exact ⟨fun _ => rfl,trivial⟩
  | send sig =>
    obtain rfl := Option.some.inj h
    cases sig with
    | sigchld => exact absurd ha id
    | sigterm | other => exact ⟨hw,trivial⟩
  | interrupted | timeout | shortRead =>
    obtain rfl := Option.some.inj h
    exact ⟨hw,trivial⟩
  | pollError errno =>
    dsimp only at h
    split_ifs at h
    obtain rfl := Option.some.inj h
    exact ⟨hw,trivial⟩
  | read sig fails status =>
    dsimp only at h
    split_ifs at h with hpending
    obtain rfl := Option.some.inj h
    cases sig with
    | sigterm | other => exact ⟨hw,trivial⟩
    | sigchld =>
      refine ⟨fun hp => ?_,Or.inr (hw hpending)⟩
      exfalso
      revert hp
      rw [handle]
      split_ifs
      · simp
      · split <;> simp

/-- When nothing else raises a SIGCHLD and none is left over, the condition is met. -/
theorem settled_of_only_exit {w u : Waiting} {as : List Act} (hw : ExitPending w) (honly : Along step OnlyExit w as)
    (hrun : run step w as = some u) : Along step Settled w as := by
  induction as generalizing w with
  | nil => trivial
  | cons a as ih =>
    obtain ⟨t,ht,hu⟩ := run_cons_some.mp hrun
    obtain ⟨ha,has⟩ := along_cons ht honly
    obtain ⟨hpending,hsettled⟩ := step_exitPending hw ha ht
    rw [Along,ht,Option.elim_some]
    exact ⟨hsettled,ih hpending has hu⟩

end SpawnWait
end Udev
