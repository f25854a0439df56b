import Mathlib.Logic.Function.Iterate
import StackLang.Machine.Step

/-!
# Contracts of parts of steps

A part of a step may succeed or stop in the middle, and what stops keeps the effects it had so far.
A contract says what holds of the machine in either case. Contracts are put together as the parts
are, so that what the smallest parts keep is what a step keeps, and what a step keeps is what any
number of steps keeps, faulting ones included.
-/

namespace StackLang.Machine

variable {α β : Type} {Q Q' : α → Machine → Prop} {R : β → Machine → Prop}
  {E E' : Stop → Machine → Prop} {x : Exec α} {f : α → Exec β} {m : Machine} {i : Instruction}

/-- What holds of an outcome: `Q` of a success, `E` of a stop. -/
def Yields (Q : α → Machine → Prop) (E : Stop → Machine → Prop) :
    EStateM.Result Stop Machine α → Prop
  | .ok a m => Q a m
  | .error e m => E e m

theorem Yields.imp {r : EStateM.Result Stop Machine α} (h : Yields Q E r)
    (hok : ∀ a m, Q a m → Q' a m) (herror : ∀ e m, E e m → E' e m) : Yields Q' E' r := by
  cases r with
  | ok a m => exact hok a m h
  | error e m => exact herror e m h

/-- One part after the other. -/
theorem Yields.bind (hx : Yields Q E (x m)) (hf : ∀ a m', Q a m' → Yields R E (f a m')) :
    Yields R E ((x >>= f) m) := by
  simp only [Bind.bind, EStateM.bind]
  cases hm : x m with
  | ok a m' =>
    rw [hm] at hx
    exact hf a m' hx
  | error e m' =>
    rw [hm] at hx
    exact hx

theorem Yields.get_bind {k : Machine → Exec β} (h : Yields R E (k m m)) :
    Yields R E ((get >>= k) m) := h

/-- A part that goes on unless there is a fault. -/
theorem Yields.guard {c : Prop} [Decidable c] {cause : FaultCause} {rest : Unit → Exec β}
    (hfault : c → E (.fault ⟨cause, m.pc, some i⟩) { m with running := false })
    (hrest : ¬c → Yields R E (rest () m)) :
    Yields R E ((if c then fault i cause >>= rest else rest ()) m) := by
  by_cases hc : c
  · rw [if_pos hc]
    exact hfault hc
  · rw [if_neg hc]
    exact hrest hc

/-- A step executes the instruction that the machine is at, and may count it. -/
theorem exists_step_eq_execute (hi : m.current? = some i) :
    ∃ steps, step m = execute i { m with steps } := by
  simp only [step, hi]
  split
  · exact ⟨m.steps, rfl⟩
  · exact ⟨m.steps + 1, rfl⟩

/-- A step without an instruction faults. -/
theorem exists_step_eq_error (hi : m.current? = none) :
    ∃ f, step m = .error (.fault f) { m with running := false } := by
  simp only [step, hi]
  exact ⟨_, rfl⟩

/-- A part of a step whose machine passes a test has succeeded. -/
theorem exists_ok_of_any {x : Exec Unit} {test : Machine → Bool}
    (h : ((x *> get).run' m).any test = true) : ∃ m', x m = .ok () m' ∧ test m' = true := by
  delta EStateM.run' at h
  simp only [EStateM.run, SeqRight.seqRight, EStateM.seqRight] at h
  cases hx : x m with
  | ok u m' =>
    rw [hx] at h
    exact ⟨m', rfl, h⟩
  | error e m' =>
    rw [hx] at h
    cases h

/-- The machine that a part of a step leaves behind, whether it succeeds or stops. -/
def leave (x : Exec α) (m : Machine) : Machine :=
  match x m with
  | .ok _ m' => m'
  | .error _ m' => m'

/-- A part of a step leaves a machine with `I` behind, whether it succeeds or stops. -/
abbrev Retains (I : Machine → Prop) : EStateM.Result Stop Machine α → Prop :=
  Yields (fun _ => I) fun _ => I

theorem Yields.leave {I : Machine → Prop} (h : Retains I (x m)) : I (leave x m) := by
  rw [Machine.leave]
  cases hm : x m with
  | ok a m' =>
    rw [hm] at h
    exact h
  | error e m' =>
    rw [hm] at h
    exact h

/-- What every step keeps, any number of steps keeps. -/
theorem iterate_leave_step {I : Machine → Prop}
    (hstep : ∀ m, I m → Retains I (step m)) (hm : I m) (n : Nat) :
    I ((leave step)^[n] m) := by
  induction n with
  | zero => exact hm
  | succ n ih =>
    rw [Function.iterate_succ_apply']
    exact (hstep _ ih).leave

end StackLang.Machine
