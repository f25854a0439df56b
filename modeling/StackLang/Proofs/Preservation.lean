import StackLang.Proofs.Accepted
import StackLang.Proofs.Runs
import StackLang.Proofs.Simulation.Program

/-!
# Compiling preserves the meaning of programs

An accepted source text that defines a first function without parameters means the same to the
machine as to its reader: the machine comes to the same value, divides by zero where the program
does, or goes on as long as the program does, and writes the same lines. Only the stack of the
machine is bounded, so that it may overflow instead.
-/

namespace StackLang

open Meaning (functionNamed? parameterNames)
open Simulation (Simulates arityAt Clean haltAddress)

/-! ## What the configurations of a program tell -/

section Configurations

variable {arity : Int → Nat} {p : Program} {globals n : Nat} {c : Config} {m : Machine}

/-- Before the last of its configurations a machine is busy. -/
theorem Machine.busy_of_after (hglobals : p.globals = globals)
    (hafter : (Machine.start globals).after arity p n = some c) (m : Machine) :
    Machine.Busy p m n := by
  intro k hk m₁ hm₁
  obtain ⟨d, hd, hrest⟩ := Config.exists_after_of_le (Nat.le_of_lt hk) hafter
  obtain ⟨e, hstep⟩ := Config.exists_step_of_after (by omega) hrest
  have hne : d.step arity p ≠ .stuck := by
    rw [hstep]
    simp
  exact (Machine.runs_of_trial_eq_ok hglobals hd hm₁).isActive hne

/-- Where the last configuration is not stuck, the machine is busy for one more step. -/
theorem Machine.busy_succ_of_after (hglobals : p.globals = globals)
    (hafter : (Machine.start globals).after arity p n = some c) (hstep : c.step arity p ≠ .stuck)
    (m : Machine) : Machine.Busy p m (n + 1) := by
  intro k hk m₁ hm₁
  rcases Nat.lt_succ_iff_lt_or_eq.mp hk with hk | rfl
  · exact Machine.busy_of_after hglobals hafter m k hk m₁ hm₁
  · exact (Machine.runs_of_trial_eq_ok hglobals hafter hm₁).isActive hstep

/-- The lines that an execution has written. -/
def Machine.Execution.written (e : Machine.Execution) : List String := e.machine.output.toList

/-- A machine comes to a result after some steps, and so does every execution that allows as
many. -/
def Finishes (m : Machine) (p : Program) (v : Int) (lines : List String) : Prop :=
  ∃ n m', Machine.trial p n m = .ok () m' ∧ m'.running = false ∧ m'.result? = some v ∧
    m'.output.toList = lines ∧
    (m.options.shortage? = none → ∀ fuel, n ≤ fuel →
      (Machine.executeProgram fuel m p).ending = .result v ∧
        (Machine.executeProgram fuel m p).written = lines)

/-- A machine faults after some steps, and so does every execution that allows as many. -/
def Faults (m : Machine) (p : Program) (category : FaultClass) (P : List String → Prop) : Prop :=
  ∃ n f m', Machine.trial p n m = .error (.fault f) m' ∧ f.cause.category = category ∧
    P m'.output.toList ∧
    (m.options.shortage? = none → ∀ fuel, n ≤ fuel →
      (Machine.executeProgram fuel m p).ending = .interrupted (.stop (.fault f)) ∧
        P (Machine.executeProgram fuel m p).written)

/-- A machine has not come to its end after `n` steps, and neither has an execution. -/
def RunsOn (m : Machine) (p : Program) (n : Nat) (lines : List String) : Prop :=
  ∃ m', Machine.trial p n m = .ok () m' ∧ m'.isActive = true ∧ m'.output.toList = lines ∧
    (m.options.shortage? = none →
      (Machine.executeProgram n m p).ending = .unfinished ∧
        (Machine.executeProgram n m p).written = lines)

theorem faults_of_trial {m' : Machine} {f : Fault} {P : List String → Prop}
    (h : Machine.trial p n m = .error (.fault f) m') (hbusy : Machine.Busy p m n)
    (hP : P m'.output.toList) : Faults m p f.cause.category P := by
  refine ⟨n, f, m', h, rfl, hP, fun hroom fuel hfuel => ?_⟩
  obtain ⟨hending, hmachine⟩ := Machine.executeProgram_of_error hroom h hbusy hfuel
  refine ⟨hending, ?_⟩
  rw [Machine.Execution.written, hmachine]
  exact hP

theorem finishes_of_trial {m' : Machine} {v : Int} (h : Machine.trial p n m = .ok () m')
    (hbusy : Machine.Busy p m n) (hstopped : m'.running = false) (hresult : m'.result? = some v) :
    Finishes m p v m'.output.toList := by
  have hinactive : m'.isActive = false := by simp [Machine.isActive, hstopped]
  refine ⟨n, m', h, hstopped, hresult, rfl, fun hroom fuel hfuel => ?_⟩
  obtain ⟨hending, houtput⟩ :=
    Machine.executeProgram_of_stopped hroom h hbusy hinactive hresult hfuel
  refine ⟨hending, ?_⟩
  rw [Machine.Execution.written, houtput]

theorem runsOn_of_trial {m' : Machine} (h : Machine.trial p n m = .ok () m')
    (hbusy : Machine.Busy p m n) (hactive : m'.isActive = true) :
    RunsOn m p n m'.output.toList := by
  refine ⟨m', h, hactive, rfl, fun hroom => ?_⟩
  obtain ⟨hending, hmachine⟩ := Machine.executeProgram_of_active hroom h hbusy hactive
  refine ⟨hending, ?_⟩
  rw [Machine.Execution.written, hmachine]

variable (hglobals : p.globals = globals)
  (hafter : (Machine.start globals).after arity p n = some c)

include hglobals hafter

theorem faults_overflow
    (hpeak : ¬((Machine.start globals).peak arity p n : Int) ≤ m.options.stackSize) :
    Faults m p .stackOverflow (· <+: c.output) := by
  have htrial := Machine.trial_eq hglobals hafter m
  rw [if_neg hpeak] at htrial
  obtain ⟨f, m', hm', hcategory, houtput⟩ := htrial
  rw [← hcategory]
  exact faults_of_trial hm' (Machine.busy_of_after hglobals hafter m) houtput

variable (hpeak : ((Machine.start globals).peak arity p n : Int) ≤ m.options.stackSize)

include hpeak

theorem finishes_of_halted {v : Int} {ts : List Int} (hstep : c.step arity p = .halted)
    (htemps : c.activation.temps = v :: ts) : Finishes m p v c.output := by
  have htrial := Machine.trial_eq hglobals hafter m
  rw [if_pos hpeak] at htrial
  obtain ⟨m', hm', hruns⟩ := htrial
  have hhalt := hruns.shows.step_halted (hruns.program.symm ▸ hstep)
  have hlast : Machine.trial p (n + 1) m =
      .ok () { m' with running := false, steps := m'.steps + 1 } := by
    rw [Machine.trial_add_of_ok hm', Machine.stepMany_succ_of_ok hhalt]
    rfl
  have hresult : m'.result? = some v := by
    have hholds := hruns.shows.holds
    rw [Config.words_of_temps_cons htemps] at hholds
    have hsp : m'.sp = (c.advance ts).words.length + 1 := by
      rw [hholds.sp]
      simp
    have hword := hholds.word? (k := (c.advance ts).words.length) (by simp)
    rw [Machine.result?, if_pos (by omega), hsp, Int.add_sub_cancel, hword]
    simp
  have hbusy : Machine.Busy p m (n + 1) :=
    Machine.busy_succ_of_after hglobals hafter (by rw [hstep]; simp) m
  have hfinishes := finishes_of_trial hlast hbusy rfl hresult
  rwa [hruns.shows.output] at hfinishes

theorem faults_of_dividesByZero (hstep : c.step arity p = .dividesByZero) :
    Faults m p .divisionByZero (· = c.output) := by
  have htrial := Machine.trial_eq hglobals hafter m
  rw [if_pos hpeak] at htrial
  obtain ⟨m', hm', hruns⟩ := htrial
  obtain ⟨f, m₁, hm₁, hcategory, houtput⟩ :=
    hruns.shows.step_dividesByZero (hruns.program.symm ▸ hstep)
  have hlast : Machine.trial p (n + 1) m = .error (.fault f) m₁ := by
    rw [Machine.trial_add_of_ok hm', Machine.stepMany_succ_of_error hm₁]
  have hbusy : Machine.Busy p m (n + 1) :=
    Machine.busy_succ_of_after hglobals hafter (by rw [hstep]; simp) m
  rw [← hcategory]
  exact faults_of_trial hlast hbusy (by rw [houtput]; exact hruns.shows.output)

theorem runsOn (hstep : c.step arity p ≠ .stuck) : RunsOn m p n c.output := by
  have htrial := Machine.trial_eq hglobals hafter m
  rw [if_pos hpeak] at htrial
  obtain ⟨m', hm', hruns⟩ := htrial
  rw [← hruns.shows.output]
  exact runsOn_of_trial hm' (Machine.busy_of_after hglobals hafter m) (hruns.isActive hstep)

end Configurations

/-! ## Accepted programs -/

section Accepted

variable {options : CompileOptions} {file source : String} {tree g : Tree} {compiled : Compiled}

theorem Accepted.exists_clean (h : Accepted options file source tree compiled) :
    ∃ statements fs s, Clean tree statements fs s ∧
      compiled.program = s.program options.comments := by
  obtain ⟨statements, fs, s, hreading, hfindings, hprogram⟩ := h.exists_reading
  exact ⟨statements, fs, s, ⟨hreading, hfindings⟩, hprogram⟩

/-- How a simulated run of a program goes on: it is never stuck. -/
theorem Simulation.Simulates.step_ne_stuck {α : Type} {arity : Int → Nat} {p : Program} {n : Nat}
    {c₀ c : Config} {r : EStateM.Result Meaning.Halt Meaning.Store α}
    {target : α → Meaning.Store → Option Config}
    (h : Simulates arity p (n + 1) c₀ r target)
    (hhalts : ∀ a s c', target a s = some c' → c'.step arity p = .halted)
    (hafter : c₀.after arity p n = some c) : c.step arity p ≠ .stuck := by
  -- Whatever the program comes to, it does so at a time `j` at which the run is not stuck either.
  have hlater {j : Nat} {d : Config} (hj : c₀.after arity p j = some d)
      (hle : n ≤ j) (hd : d.step arity p ≠ .stuck) : c.step arity p ≠ .stuck := by
    obtain ⟨c', hc', hrest⟩ := Config.exists_after_of_le hle hj
    obtain rfl : c = c' := Option.some.inj (hafter.symm.trans hc')
    rcases Nat.eq_zero_or_pos (j - n) with hzero | hpos
    · rw [hzero] at hrest
      obtain rfl := Option.some.inj hrest
      exact hd
    · obtain ⟨e, hstep⟩ := Config.exists_step_of_after hpos hrest
      rw [hstep]
      simp
  cases r with
  | ok a s =>
    obtain ⟨j, d, htarget, hj⟩ := h
    have hhalt := hhalts a s d htarget
    have hle := Config.le_of_after_of_end hj (by rw [hhalt]; simp) hafter
    exact hlater hj hle (by rw [hhalt]; simp)
  | error e s =>
    cases e with
    | divisionByZero =>
      obtain ⟨j, d, hj, hdivides, -⟩ := h
      have hle := Config.le_of_after_of_end hj (by rw [hdivides]; simp) hafter
      exact hlater hj hle (by rw [hdivides]; simp)
    | timeout =>
      obtain ⟨j, d, hjn, hj, -⟩ := h
      obtain ⟨c', hc', hrest⟩ := Config.exists_after_of_le (by omega : n ≤ j) hj
      obtain rfl : c = c' := Option.some.inj (hafter.symm.trans hc')
      obtain ⟨e, hstep⟩ := Config.exists_step_of_after (by omega) hrest
      rw [hstep]
      simp
    | stuck => exact h.elim

/-- The configurations of an accepted program do what the program means and are never stuck. -/
theorem Accepted.simulates (h : Accepted options file source tree compiled)
    (hmain : functionNamed? tree "main" = some g) (hparameters : parameterNames g = []) :
    ∃ (globals : Nat) (target : Int → Meaning.Store → Config),
      compiled.program.globals = globals ∧
      (∀ k, Simulates (arityAt tree compiled.program) compiled.program k (Machine.start globals)
        (Meaning.run tree k) fun v s => some (target v s)) ∧
      (∀ v s, (target v s).step (arityAt tree compiled.program) compiled.program = .halted ∧
        (target v s).activation.temps = [v] ∧ (target v s).output = s.output) ∧
      ∀ n c, (Machine.start globals).after (arityAt tree compiled.program) compiled.program n =
        some c → c.step (arityAt tree compiled.program) compiled.program ≠ .stuck := by
  obtain ⟨statements, fs, s, hclean, hprogram⟩ := h.exists_clean
  have hsimulates := hclean.simulates_run hmain hparameters options.comments
  rw [← hprogram] at hsimulates
  have hhalts (v : Int) (s' : Meaning.Store) :
      (Simulation.Site.config s.functionScope.globals .outside (haltAddress s) s' [v]).step
        (arityAt tree compiled.program) compiled.program = .halted := by
    rw [hprogram]
    exact Simulation.step_haltAddress s options.comments rfl
  refine ⟨s.functionScope.globals.length, fun v s' =>
    Simulation.Site.config s.functionScope.globals .outside (haltAddress s) s' [v],
    by rw [hprogram]; rfl, hsimulates, fun v s' => ⟨hhalts v s', rfl, rfl⟩, ?_⟩
  intro n c hafter
  refine (hsimulates (n + 1)).step_ne_stuck ?_ hafter
  rintro v s' _ ⟨⟩
  exact hhalts v s'

/-- With room for `need` words on its stack a machine does as it should; with less it overflows,
having written some of the lines. -/
def WithRoom (need : Nat) (m : Machine) (p : Program) (lines : List String) (P : Prop) : Prop :=
  if need ≤ m.options.stackSize then P else Faults m p .stackOverflow (· <+: lines)

/-- What a machine does about the result of a program within a clock. -/
def Realizes (m : Machine) (p : Program) (clock need : Nat) :
    EStateM.Result Meaning.Halt Meaning.Store Int → Prop
  | .ok v s => WithRoom need m p s.output (Finishes m p v s.output)
  | .error .divisionByZero s =>
    WithRoom need m p s.output (Faults m p .divisionByZero (· = s.output))
  | .error .timeout s =>
    WithRoom need m p s.output (∃ n, clock ≤ n ∧ RunsOn m p n s.output)
  | .error .stuck _ => False

variable {arity : Int → Nat} {p : Program} {globals : Nat}
  {target : Int → Meaning.Store → Config}

/-- A machine realizes what its configurations simulate. -/
theorem exists_realizes (hglobals : p.globals = globals)
    (hhalts : ∀ v s, (target v s).step arity p = .halted ∧
      (target v s).activation.temps = [v] ∧ (target v s).output = s.output)
    (hstuck : ∀ n c, (Machine.start globals).after arity p n = some c → c.step arity p ≠ .stuck)
    {clock : Nat} {r : EStateM.Result Meaning.Halt Meaning.Store Int}
    (hsimulates : Simulates arity p clock (Machine.start globals) r fun v s => some (target v s)) :
    ∃ need, ∀ m, Realizes m p clock need r := by
  cases r with
  | ok v s =>
    obtain ⟨n, _, ⟨⟩, hafter⟩ := hsimulates
    obtain ⟨hhalt, htemps, houtput⟩ := hhalts v s
    refine ⟨(Machine.start globals).peak arity p n, fun m => ?_⟩
    rw [Realizes, WithRoom, ← houtput]
    split
    · rename_i hpeak
      exact finishes_of_halted hglobals hafter hpeak hhalt htemps
    · rename_i hpeak
      exact faults_overflow hglobals hafter hpeak
  | error e s =>
    cases e with
    | divisionByZero =>
      obtain ⟨n, c, hafter, hdivides, houtput⟩ := hsimulates
      refine ⟨(Machine.start globals).peak arity p n, fun m => ?_⟩
      rw [Realizes, WithRoom, ← houtput]
      split
      · rename_i hpeak
        exact faults_of_dividesByZero hglobals hafter hpeak hdivides
      · rename_i hpeak
        exact faults_overflow hglobals hafter hpeak
    | timeout =>
      obtain ⟨n, c, hle, hafter, houtput⟩ := hsimulates
      refine ⟨(Machine.start globals).peak arity p n, fun m => ?_⟩
      rw [Realizes, WithRoom, ← houtput]
      split
      · rename_i hpeak
        exact ⟨n, hle, runsOn hglobals hafter hpeak (hstuck n c hafter)⟩
      · rename_i hpeak
        exact faults_overflow hglobals hafter hpeak
    | stuck => exact hsimulates.elim

/-- A machine whose configurations go on for ever runs for ever unless it overflows. -/
theorem runsOn_or_overflow (hglobals : p.globals = globals)
    (hforever : ∀ n, ∃ c, (Machine.start globals).after arity p n = some c)
    (hstuck : ∀ n c, (Machine.start globals).after arity p n = some c → c.step arity p ≠ .stuck)
    (m : Machine) :
    (∀ n, ∃ lines, RunsOn m p n lines) ∨ Faults m p .stackOverflow fun _ => True := by
  by_cases hpeaks : ∀ n, ((Machine.start globals).peak arity p n : Int) ≤ m.options.stackSize
  · left
    intro n
    obtain ⟨c, hafter⟩ := hforever n
    exact ⟨c.output, runsOn hglobals hafter (hpeaks n) (hstuck n c hafter)⟩
  · right
    obtain ⟨n, hpeak⟩ := not_forall.mp hpeaks
    obtain ⟨c, hafter⟩ := hforever n
    obtain ⟨k, f, m', hm', hcategory, -, hrun⟩ := faults_overflow hglobals hafter hpeak
    exact ⟨k, f, m', hm', hcategory, trivial, fun hroom fuel hfuel =>
      ⟨(hrun hroom fuel hfuel).1, trivial⟩⟩

/-- Compiling preserves the meaning of a program. For every clock there is a number of words such
that a machine with that much room comes to the same value or division by zero as the program, or
goes on for at least as many steps as the clock if the program takes longer, and has written the
same lines. A program that no clock suffices for keeps the machine running, unless it overflows. -/
theorem meaning_preserved (h : Accepted options file source tree compiled)
    (hmain : functionNamed? tree "main" = some g) (hparameters : parameterNames g = []) :
    (∀ clock, ∃ need, ∀ m, Realizes m compiled.program clock need (Meaning.run tree clock)) ∧
    ((∀ clock, ∃ s, Meaning.run tree clock = .error .timeout s) →
      ∀ m, (∀ n, ∃ lines, RunsOn m compiled.program n lines) ∨
        Faults m compiled.program .stackOverflow fun _ => True) := by
  obtain ⟨globals, target, hglobals, hsimulates, hhalts, hstuck⟩ := h.simulates hmain hparameters
  constructor
  · intro clock
    exact exists_realizes hglobals hhalts hstuck (hsimulates clock)
  · intro hlong m
    -- There is a configuration at every time, because the clock may be set to that time.
    have hforever (n : Nat) : ∃ c, (Machine.start globals).after (arityAt tree compiled.program)
        compiled.program n = some c := by
      obtain ⟨s, hs⟩ := hlong n
      have hclock := hsimulates n
      rw [hs] at hclock
      obtain ⟨j, d, hle, hj, -⟩ := hclock
      obtain ⟨c, hc, -⟩ := Config.exists_after_of_le hle hj
      exact ⟨c, hc⟩
    exact runsOn_or_overflow hglobals hforever hstuck m

/-- A program that prints a number, calls itself and changes a global variable. -/
def countdown : String :=
  "var g: int = 2 fn f(n: int) -> int \x7b if (n < 1) \x7b return g \x7d g = g + n " ++
    "return f(n - 1) \x7d fn main() -> int \x7b return print(f(3)) / 3 \x7d"

/-- The value and the lines that a result tells. -/
def answer? : EStateM.Result Meaning.Halt Meaning.Store Int → Option (Int × List String)
  | .ok v s => some (v, s.output)
  | .error _ _ => none

theorem answer?_eq_some {r : EStateM.Result Meaning.Halt Meaning.Store Int} {v : Int}
    {lines : List String} (h : answer? r = some (v, lines)) :
    ∃ s, r = .ok v s ∧ s.output = lines := by
  cases r with
  | ok w s =>
    obtain ⟨rfl, houtput⟩ := Prod.mk.inj (Option.some.inj h)
    exact ⟨s, rfl, houtput⟩
  | error e s => cases h

theorem accepted_countdown :
    ∃ tree compiled g, Accepted {} "countdown" countdown tree compiled ∧
      functionNamed? tree "main" = some g ∧ parameterNames g = [] :=
  Accepted.exists_main {} "countdown" countdown (by decide) (by decide +kernel) (by decide +kernel)

theorem meaning_preserved_countdown :
    ∃ tree compiled g, Accepted {} "countdown" countdown tree compiled ∧
      functionNamed? tree "main" = some g ∧ parameterNames g = [] ∧
      (∃ s, Meaning.run tree 6 = .ok 2 s ∧ s.output = ["8"]) ∧
      ∀ clock, ∃ need, ∀ m, Realizes m compiled.program clock need (Meaning.run tree clock) := by
  obtain ⟨tree, compiled, g, haccepted, hmain, hparameters⟩ := accepted_countdown
  refine ⟨tree, compiled, g, haccepted, hmain, hparameters, ?_,
    (meaning_preserved haccepted hmain hparameters).1⟩
  have hrun : ((Source.tree "countdown" countdown).toOption.bind fun t =>
      answer? (Meaning.run t 6)) = some (2, ["8"]) := by
    decide +kernel
  rw [haccepted.parsed] at hrun
  exact answer?_eq_some hrun

end Accepted

end StackLang
