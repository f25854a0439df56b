import StackLang.Proofs.Meaning
import StackLang.Proofs.Steps
import StackLang.Script.Code

/-!
# Code in its place

Drafts stand in a program from an address on. What a computation comes to is simulated from a
configuration if the configuration leads, step by step, to what the result calls for: to the next
configuration, to a division by zero, or on and on while the clock runs out.
-/

namespace StackLang

/-! ## Drafts in a program -/

/-- The drafts stand in a program from an address on, with the addresses put in. -/
def Program.Has (p : Program) (entries : List (String × Nat)) (address : Nat) (ds : List Draft) :
    Prop :=
  ∀ k d, ds[k]? = some d → ∃ i, p.code[address + k]? = some i ∧
    i.operation = d.action.operation entries (address + k)

section Has

variable {p : Program} {entries : List (String × Nat)} {address : Nat} {ds es : List Draft}
  {d : Draft}

theorem Program.has_append :
    p.Has entries address (ds ++ es) ↔
      p.Has entries address ds ∧ p.Has entries (address + ds.length) es := by
  constructor
  · intro h
    constructor
    · intro k d hd
      have hk : k < ds.length := (List.getElem?_eq_some_iff.mp hd).1
      exact h k d (by rw [List.getElem?_append_left hk, hd])
    · intro k d hd
      rw [Nat.add_assoc]
      refine h (ds.length + k) d ?_
      rw [List.getElem?_append_right (Nat.le_add_right _ _), Nat.add_sub_cancel_left, hd]
  · rintro ⟨hds, hes⟩ k d hd
    by_cases hk : k < ds.length
    · rw [List.getElem?_append_left hk] at hd
      exact hds k d hd
    · rw [List.getElem?_append_right (by omega)] at hd
      have hes' := hes (k - ds.length) d hd
      have hadd : address + ds.length + (k - ds.length) = address + k := by omega
      rw [hadd] at hes'
      exact hes'

theorem Program.has_cons :
    p.Has entries address (d :: ds) ↔
      p.Has entries address [d] ∧ p.Has entries (address + 1) ds := by
  rw [← List.singleton_append]
  exact has_append

theorem Program.Has.lt_size (h : p.Has entries address [d]) : address < p.size := by
  obtain ⟨i, hi, -⟩ := h 0 d rfl
  exact (Array.getElem?_eq_some_iff.mp hi).1

/-- At a draft, a step carries out its operation. -/
theorem Config.step_of_has (arity : Int → Nat) {c : Config} (h : p.Has entries c.pc [d]) :
    c.step arity p = c.perform arity p.size (d.action.operation entries c.pc) := by
  obtain ⟨i, hi, hoperation⟩ := h 0 d rfl
  rw [Nat.add_zero] at hi hoperation
  simp only [Config.step, hi, hoperation]

/-- Linked code stands in the program that is made of it. -/
theorem Draft.getElem?_link (comments : Bool) (entries : List (String × Nat)) (address k : Nat)
    (ds : List Draft) :
    (Draft.link comments entries address ds)[k]? =
      ds[k]?.map fun d =>
        { operation := d.action.operation entries (address + k), label := d.label,
          comment := if comments then d.comment else none } := by
  induction ds generalizing address k with
  | nil => rfl
  | cons d ds ih =>
    cases k with
    | zero => rfl
    | succ k =>
      rw [Draft.link, List.getElem?_cons_succ, ih, List.getElem?_cons_succ]
      have hadd : address + 1 + k = address + (k + 1) := by omega
      rw [hadd]

theorem Script.program_has (comments : Bool) (s : Script) :
    (s.program comments).Has s.entries 0 s.code := by
  intro k d hd
  have hlinked := Draft.getElem?_link comments s.entries 0 k s.code
  rw [hd, Option.map_some] at hlinked
  exact ⟨_, by rw [Script.program, List.getElem?_toArray, Nat.zero_add, hlinked], rfl⟩

end Has

/-! ## Simulated computations -/

namespace Simulation

open Meaning (Eval Halt Store)

variable {α β : Type}

/-- What a computation comes to is what happens from a configuration on: a result leads to its
target, and out of time it is only after at least `k` steps. -/
def Simulates (arity : Int → Nat) (p : Program) (k : Nat) (c : Config)
    (r : EStateM.Result Halt Store α) (target : α → Store → Option Config) : Prop :=
  match r with
  | .ok a s => ∃ n c', target a s = some c' ∧ c.after arity p n = some c'
  | .error .divisionByZero s =>
    ∃ n c', c.after arity p n = some c' ∧ c'.step arity p = .dividesByZero ∧ c'.output = s.output
  | .error .timeout s => ∃ n c', k ≤ n ∧ c.after arity p n = some c' ∧ c'.output = s.output
  | .error .stuck _ => False

variable {arity : Int → Nat} {p : Program} {k : Nat} {c c' : Config}
  {r : EStateM.Result Halt Store α} {target : α → Store → Option Config}

theorem Simulates.of_eq {a : α} {s : Store} (h : target a s = some c) :
    Simulates arity p k c (.ok a s) target :=
  ⟨0, c, h, rfl⟩

theorem Simulates.of_step {a : α} {s : Store} (h : c.step arity p = .next c')
    (htarget : target a s = some c') : Simulates arity p k c (.ok a s) target :=
  ⟨1, c', htarget, Config.after_succ h⟩

/-- Steps before a simulated computation count as well. -/
theorem Simulates.after {n : Nat} (hafter : c.after arity p n = some c')
    (h : Simulates arity p k c' r target) : Simulates arity p (k + n) c r target := by
  cases r with
  | ok a s =>
    obtain ⟨j, d, htarget, hj⟩ := h
    exact ⟨n + j, d, htarget, by rw [Config.after_add hafter, hj]⟩
  | error e s =>
    cases e with
    | divisionByZero =>
      obtain ⟨j, d, hj, hstep, houtput⟩ := h
      exact ⟨n + j, d, by rw [Config.after_add hafter, hj], hstep, houtput⟩
    | timeout =>
      obtain ⟨j, d, hk, hj, houtput⟩ := h
      exact ⟨n + j, d, by omega, by rw [Config.after_add hafter, hj], houtput⟩
    | stuck => exact h

theorem Simulates.weaken {j : Nat} (h : Simulates arity p k c r target) (hjk : j ≤ k) :
    Simulates arity p j c r target := by
  cases r with
  | ok a s => exact h
  | error e s =>
    cases e with
    | divisionByZero => exact h
    | timeout =>
      obtain ⟨n, d, hk, hn, houtput⟩ := h
      exact ⟨n, d, hjk.trans hk, hn, houtput⟩
    | stuck => exact h

theorem Simulates.step (hstep : c.step arity p = .next c')
    (h : Simulates arity p k c' r target) : Simulates arity p k c r target :=
  (h.after (n := 1) (Config.after_succ hstep)).weaken (Nat.le_succ k)

/-- A computation that goes on with its result is simulated in two parts. -/
theorem Simulates.bind_partial {x : Eval α} {f : α → Eval β} {s : Store}
    {middle : α → Store → Option Config} {target : β → Store → Option Config}
    (hx : Simulates arity p k c (x s) middle)
    (hf : ∀ a s' c', x s = .ok a s' → middle a s' = some c' →
      Simulates arity p k c' (f a s') target) :
    Simulates arity p k c ((x >>= f) s) target := by
  simp only [Bind.bind, EStateM.bind]
  cases hxs : x s with
  | ok a s' =>
    rw [hxs] at hx
    obtain ⟨n, c', hmiddle, hn⟩ := hx
    exact ((hf a s' c' hxs hmiddle).after hn).weaken (Nat.le_add_right k n)
  | error e s' =>
    rw [hxs] at hx
    cases e with
    | divisionByZero => exact hx
    | timeout => exact hx
    | stuck => exact hx

theorem Simulates.bind {x : Eval α} {f : α → Eval β} {s : Store} {middle : α → Store → Config}
    {target : β → Store → Option Config}
    (hx : Simulates arity p k c (x s) fun a s' => some (middle a s'))
    (hf : ∀ a s', x s = .ok a s' → Simulates arity p k (middle a s') (f a s') target) :
    Simulates arity p k c ((x >>= f) s) target := by
  refine hx.bind_partial ?_
  rintro a s' _ hxs ⟨⟩
  exact hf a s' hxs

end Simulation

end StackLang
