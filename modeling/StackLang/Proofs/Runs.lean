import StackLang.Machine.Run
import StackLang.Proofs.Steps

/-!
# Runs of whole programs

A program is taken in and executed step by step, or all at once with records. What the steps come
to is read off the configurations of the program, and what the whole run comes to is read off the
steps.
-/

namespace StackLang

/-! ## Configurations of a program -/

namespace Config

variable {arity : Int → Nat} {p : Program} {c c' c'' : Config}

/-- A configuration from which a later one is reached goes on. -/
theorem exists_step_of_after {n : Nat} (hn : 0 < n) (h : c.after arity p n = some c') :
    ∃ d, c.step arity p = .next d := by
  obtain ⟨k, rfl⟩ : ∃ k, n = k + 1 := ⟨n - 1, by omega⟩
  obtain ⟨d, hstep, -⟩ := exists_of_after_succ h
  exact ⟨d, hstep⟩

/-- Where a run has come to an end there is nothing later. -/
theorem le_of_after_of_end {j n : Nat} (hj : c.after arity p j = some c')
    (hend : ∀ d, c'.step arity p ≠ .next d) (hn : c.after arity p n = some c'') : n ≤ j := by
  apply Nat.le_of_not_lt
  intro hlt
  obtain ⟨d, hd, hrest⟩ := exists_after_of_le (Nat.le_of_lt hlt) hn
  obtain rfl : c' = d := Option.some.inj (hj.symm.trans hd)
  obtain ⟨e, hstep⟩ := exists_step_of_after (by omega) hrest
  exact hend e hstep

/-- Without stuck configurations a run goes on until it halts or divides by zero. -/
theorem after_cases (hstuck : ∀ k d, c.after arity p k = some d → d.step arity p ≠ .stuck)
    (n : Nat) :
    (∃ d, c.after arity p n = some d) ∨
      ∃ k < n, ∃ d, c.after arity p k = some d ∧
        (d.step arity p = .halted ∨ d.step arity p = .dividesByZero) := by
  induction n with
  | zero => exact .inl ⟨c, rfl⟩
  | succ n ih =>
    rcases ih with ⟨d, hd⟩ | ⟨k, hk, d, hd, hend⟩
    · cases hstep : d.step arity p with
      | next e =>
        refine .inl ⟨e, ?_⟩
        rw [after_add hd, after_succ hstep, after]
      | halted => exact .inr ⟨n, Nat.lt_succ_self n, d, hd, .inl hstep⟩
      | dividesByZero => exact .inr ⟨n, Nat.lt_succ_self n, d, hd, .inr hstep⟩
      | stuck => exact absurd hstep (hstuck n d hd)
    · exact .inr ⟨k, Nat.lt_succ_of_lt hk, d, hd, hend⟩

/-- A configuration that is not stuck is at an instruction. -/
theorem pc_lt_size (h : c.step arity p ≠ .stuck) : c.pc < p.size := by
  unfold step at h
  split at h
  · rename_i i hi
    exact (Array.getElem?_eq_some_iff.mp hi).1
  · exact absurd rfl h

end Config

namespace Machine

variable {arity : Int → Nat} {p : Program} {globals n : Nat} {c : Config} {m m' : Machine}

/-! ## Step by step -/

theorem trial_of_load_ok {m₁ : Machine} (h : loadProgram p m = .ok () m₁) :
    trial p n m = stepMany n m₁ :=
  bind_of_ok h

theorem trial_of_load_error {e : Stop} (h : loadProgram p m = .error e m') :
    trial p n m = .error e m' :=
  bind_of_error h

theorem trial_add_of_ok {k : Nat} (h : trial p k m = .ok () m') :
    trial p (k + n) m = stepMany n m' := by
  cases hload : loadProgram p m with
  | error e m₁ =>
    rw [trial_of_load_error hload] at h
    cases h
  | ok u m₁ =>
    rw [trial_of_load_ok hload] at h ⊢
    exact stepMany_add_of_ok h

theorem trial_add_of_error {k : Nat} {e : Stop} (h : trial p k m = .error e m') :
    trial p (k + n) m = .error e m' := by
  cases hload : loadProgram p m with
  | error e' m₁ =>
    rw [trial_of_load_error hload] at h ⊢
    exact h
  | ok u m₁ =>
    rw [trial_of_load_ok hload] at h ⊢
    exact stepMany_add_of_error h

/-- A machine at work on a program. -/
structure Runs (p : Program) (m m' : Machine) (c : Config) : Prop where
  shows : m'.Shows c
  options : m'.options = m.options
  program : m'.program = p
  running : m'.running = true

/-- The machine goes through the configurations of a program, or overflows if its stack has no room
for one of them. -/
theorem trial_eq (hglobals : p.globals = globals)
    (hafter : (start globals).after arity p n = some c) (m : Machine) :
    if ((start globals).peak arity p n : Int) ≤ m.options.stackSize then
      ∃ m', trial p n m = .ok () m' ∧ Runs p m m' c
    else
      ∃ f m', trial p n m = .error (.fault f) m' ∧ f.cause.category = .stackOverflow ∧
        m'.output.toList <+: c.output := by
  have hheight := Config.height_le_peak arity p (start globals) n
  have hstart : (start globals).height = globals := by
    rw [← Config.length_words, words_start, List.length_replicate]
  have hload := loadProgram_eq hglobals m
  by_cases hroom : (globals : Int) ≤ m.options.stackSize
  · rw [if_pos hroom] at hload
    obtain ⟨m₁, hm₁, hshows, hoptions, rfl, hrunning⟩ := hload
    rw [trial_of_load_ok hm₁]
    by_cases hpeak : ((start globals).peak arity m₁.program n : Int) ≤ m.options.stackSize
    · rw [if_pos hpeak]
      rw [← hoptions] at hpeak
      obtain ⟨m', hm', hshows', hkeeps⟩ := hshows.stepMany_of_peak_le hafter hpeak
      exact ⟨m', hm', hshows', hkeeps.options.trans hoptions, hkeeps.program,
        hkeeps.running.trans hrunning⟩
    · rw [if_neg hpeak]
      rw [← hoptions] at hpeak
      exact hshows.stepMany_of_lt_peak hafter (Int.not_le.mp hpeak)
  · rw [if_neg hroom] at hload
    obtain ⟨f, m₁, hm₁, hcategory, houtput⟩ := hload
    rw [if_neg (by omega), trial_of_load_error hm₁]
    exact ⟨f, m₁, rfl, hcategory, by simp [houtput]⟩

/-- A machine that has come to a configuration without a fault shows it. -/
theorem runs_of_trial_eq_ok (hglobals : p.globals = globals)
    (hafter : (start globals).after arity p n = some c) (h : trial p n m = .ok () m') :
    Runs p m m' c := by
  have htrial := trial_eq hglobals hafter m
  split at htrial
  · obtain ⟨m₁, hm₁, hruns⟩ := htrial
    rw [hm₁] at h
    cases h
    exact hruns
  · obtain ⟨f, m₁, hm₁, -⟩ := htrial
    rw [hm₁] at h
    cases h

theorem Runs.isActive (h : Runs p m m' c) (hstep : c.step arity p ≠ .stuck) :
    m'.isActive = true := by
  have hlt := Config.pc_lt_size hstep
  have hpc : m'.pc < m'.program.size := by
    rw [h.shows.pc, h.program]
    exact Int.ofNat_lt.mpr hlt
  simp [Machine.isActive, h.running, hpc]

/-- A halted machine stays where it is. -/
theorem Shows.stepMany_of_halted (h : m.Shows c) (hstep : c.step arity m.program = .halted)
    (n : Nat) :
    ∃ m', stepMany n m = .ok () m' ∧ m'.Shows c ∧ m'.options = m.options ∧
      m'.program = m.program := by
  induction n generalizing m with
  | zero => exact ⟨m, rfl, h, rfl, rfl⟩
  | succ n ih =>
    have hhalt := h.step_halted hstep
    have hshows : Shows { m with running := false, steps := m.steps + 1 } c :=
      ⟨h.pc, h.fp, h.holds.congr rfl rfl rfl, h.output⟩
    obtain ⟨m', hm', hshows', hoptions, hprogram⟩ := ih hshows hstep
    exact ⟨m', by rw [stepMany_succ_of_ok hhalt, hm'], hshows', hoptions, hprogram⟩

/-! ## All at once -/

/-- The machine is active at all times before `n`. -/
def Busy (p : Program) (m : Machine) (n : Nat) : Prop :=
  ∀ k < n, ∀ m₁, trial p k m = .ok () m₁ → m₁.isActive = true

theorem stepLogged_of_ok (h : step m = .ok () m') :
    m.stepLogged.machine = m' ∧ m.stepLogged.interruption = none := by
  unfold stepLogged
  rw [h]
  exact ⟨rfl, rfl⟩

theorem stepLogged_of_error {e : Stop} (h : step m = .error e m') :
    m.stepLogged.machine = m' ∧ m.stepLogged.interruption = some (.stop e) := by
  unfold stepLogged
  rw [h]
  exact ⟨rfl, rfl⟩

/-- Steps that succeed come first in a run. -/
theorem exists_runFrom_of_ok (h : stepMany n m = .ok () m')
    (hactive : ∀ k < n, ∀ m₁, stepMany k m = .ok () m₁ → m₁.isActive = true) (logs : List Log) :
    ∃ logs', ∀ fuel, runFrom (n + fuel) logs m = runFrom fuel logs' m' := by
  induction n generalizing m logs with
  | zero =>
    obtain rfl : m = m' := by simpa [stepMany, pure, EStateM.pure] using h
    exact ⟨logs, fun fuel => by rw [Nat.zero_add]⟩
  | succ n ih =>
    have hm : m.isActive = true := hactive 0 (Nat.succ_pos n) m rfl
    cases hstep : step m with
    | error e m₁ =>
      rw [stepMany_succ_of_error hstep] at h
      cases h
    | ok u m₁ =>
      rw [stepMany_succ_of_ok hstep] at h
      obtain ⟨hmachine, hnone⟩ := stepLogged_of_ok hstep
      obtain ⟨logs', hruns⟩ := ih h (fun k hk m₂ hm₂ => hactive (k + 1) (Nat.succ_lt_succ hk) m₂
        (by rw [stepMany_succ_of_ok hstep, hm₂])) (m.stepLogged.logs.reverse ++ logs)
      refine ⟨logs', fun fuel => ?_⟩
      rw [Nat.add_right_comm, runFrom, if_pos hm]
      simp only [hnone, hmachine]
      exact hruns fuel

/-- The first step that fails interrupts a run. -/
theorem exists_runFrom_of_error {e : Stop} (h : stepMany n m = .error e m')
    (hactive : ∀ k < n, ∀ m₁, stepMany k m = .ok () m₁ → m₁.isActive = true) (logs : List Log)
    {fuel : Nat} (hfuel : n ≤ fuel) :
    ∃ logs', runFrom fuel logs m = ⟨m', logs', some (.stop e)⟩ := by
  induction n generalizing m logs fuel with
  | zero => cases h
  | succ n ih =>
    obtain ⟨fuel, rfl⟩ : ∃ j, fuel = j + 1 := ⟨fuel - 1, by omega⟩
    have hm : m.isActive = true := hactive 0 (Nat.succ_pos n) m rfl
    rw [runFrom, if_pos hm]
    cases hstep : step m with
    | error e' m₁ =>
      rw [stepMany_succ_of_error hstep] at h
      cases h
      obtain ⟨hmachine, hsome⟩ := stepLogged_of_error hstep
      simp only [hsome, hmachine]
      exact ⟨_, rfl⟩
    | ok u m₁ =>
      rw [stepMany_succ_of_ok hstep] at h
      obtain ⟨hmachine, hnone⟩ := stepLogged_of_ok hstep
      simp only [hnone, hmachine]
      exact ih h (fun k hk m₂ hm₂ => hactive (k + 1) (Nat.succ_lt_succ hk) m₂
        (by rw [stepMany_succ_of_ok hstep, hm₂])) _ (Nat.le_of_succ_le_succ hfuel)

/-- An inactive machine does not go on. -/
theorem runFrom_of_not_isActive (h : m.isActive = false) (fuel : Nat) (logs : List Log) :
    runFrom fuel logs m = ⟨m, logs.reverse, none⟩ := by
  cases fuel with
  | zero => rfl
  | succ fuel => rw [runFrom, if_neg (by simp [h])]

section Execute

variable (hroom : m.options.shortage? = none)

include hroom

theorem loadLogged_of_ok {m₁ : Machine} (h : loadProgram p m = .ok () m₁) :
    m.loadLogged p = ⟨m₁, [], none⟩ := by
  simp only [loadLogged, hroom, h]

/-- A fault of a step is what the whole run comes to. -/
theorem executeProgram_of_error {e : Stop} (h : trial p n m = .error e m') (hbusy : Busy p m n)
    {fuel : Nat} (hfuel : n ≤ fuel) :
    (executeProgram fuel m p).ending = .interrupted (.stop e) ∧
      (executeProgram fuel m p).machine = m' := by
  cases hload : loadProgram p m with
  | error e' m₁ =>
    rw [trial_of_load_error hload] at h
    cases h
    simp [executeProgram, loadLogged, hroom, hload]
  | ok u m₁ =>
    rw [trial_of_load_ok hload] at h
    obtain ⟨logs', hrun⟩ := exists_runFrom_of_error h (fun k hk m₂ hm₂ => hbusy k hk m₂
      (by rw [trial_of_load_ok hload, hm₂])) [] hfuel
    simp [executeProgram, loadLogged_of_ok hroom hload, run, hrun]

/-- A machine that is still active after all the steps allowed has not finished. -/
theorem executeProgram_of_active (h : trial p n m = .ok () m') (hbusy : Busy p m n)
    (hactive : m'.isActive = true) :
    (executeProgram n m p).ending = .unfinished ∧ (executeProgram n m p).machine = m' := by
  cases hload : loadProgram p m with
  | error e' m₁ =>
    rw [trial_of_load_error hload] at h
    cases h
  | ok u m₁ =>
    rw [trial_of_load_ok hload] at h
    obtain ⟨logs', hrun⟩ := exists_runFrom_of_ok h (fun k hk m₂ hm₂ => hbusy k hk m₂
      (by rw [trial_of_load_ok hload, hm₂])) []
    have hlast : runFrom n [] m₁ = ⟨m', logs'.reverse, none⟩ := hrun 0
    simp [executeProgram, loadLogged_of_ok hroom hload, run, hlast, hactive]

/-- A machine that is no longer active ends the whole run, with the top word if there is one. -/
theorem executeProgram_of_inactive (h : trial p n m = .ok () m') (hbusy : Busy p m n)
    (hstopped : m'.isActive = false) {fuel : Nat} (hfuel : n ≤ fuel) :
    (executeProgram fuel m p).ending =
        m'.result?.elim (.interrupted (.stop .outside)) Ending.result ∧
      (executeProgram fuel m p).machine.output = m'.output := by
  obtain ⟨j, rfl⟩ : ∃ j, fuel = n + j := ⟨fuel - n, by omega⟩
  cases hload : loadProgram p m with
  | error e' m₁ =>
    rw [trial_of_load_error hload] at h
    cases h
  | ok u m₁ =>
    rw [trial_of_load_ok hload] at h
    obtain ⟨logs', hrun⟩ := exists_runFrom_of_ok h (fun k hk m₂ hm₂ => hbusy k hk m₂
      (by rw [trial_of_load_ok hload, hm₂])) []
    have hlast : runFrom (n + j) [] m₁ = ⟨m', logs'.reverse, none⟩ := by
      rw [hrun, runFrom_of_not_isActive hstopped]
    have hvalue : result? { m' with running := false } = m'.result? := rfl
    cases hresult : m'.result? with
    | none =>
      rw [hresult] at hvalue
      simp [executeProgram, loadLogged_of_ok hroom hload, run, hlast, hstopped, hvalue]
    | some v =>
      rw [hresult] at hvalue
      simp [executeProgram, loadLogged_of_ok hroom hload, run, hlast, hstopped, hvalue]

/-- A machine that has stopped gives the top word. -/
theorem executeProgram_of_stopped {v : Int} (h : trial p n m = .ok () m') (hbusy : Busy p m n)
    (hstopped : m'.isActive = false) (hresult : m'.result? = some v) {fuel : Nat}
    (hfuel : n ≤ fuel) :
    (executeProgram fuel m p).ending = .result v ∧
      (executeProgram fuel m p).machine.output = m'.output := by
  have hends := executeProgram_of_inactive hroom h hbusy hstopped hfuel
  rwa [hresult] at hends

end Execute

end Machine

end StackLang
