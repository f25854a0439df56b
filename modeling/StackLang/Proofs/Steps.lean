import StackLang.Proofs.Refinement

/-!
# Many steps

What a machine does in many steps, told by the configurations it goes through. It overflows exactly
if one of them has more words than the stack; otherwise it goes through all of them.
-/

namespace StackLang

namespace Config

variable (arity : Int → Nat) (p : Program)

/-- The configuration after `n` steps, if each of them leads to a next one. -/
def after : Nat → Config → Option Config
  | 0, c => some c
  | n + 1, c =>
    match c.step arity p with
    | .next c' => after n c'
    | _ => none

/-- The greatest number of words in the first `n` steps. -/
def peak : Nat → Config → Nat
  | 0, c => c.height
  | n + 1, c =>
    match c.step arity p with
    | .next c' => max c.height (peak n c')
    | _ => c.height

variable {arity p} {c c' c'' : Config}

theorem after_succ {n : Nat} (h : c.step arity p = .next c') :
    c.after arity p (n + 1) = c'.after arity p n := by
  rw [after, h]

theorem peak_succ {n : Nat} (h : c.step arity p = .next c') :
    c.peak arity p (n + 1) = max c.height (c'.peak arity p n) := by
  rw [peak, h]

theorem exists_of_after_succ {n : Nat} (h : c.after arity p (n + 1) = some c'') :
    ∃ c', c.step arity p = .next c' ∧ c'.after arity p n = some c'' := by
  rw [after] at h
  split at h
  · rename_i c' hstep
    exact ⟨c', hstep, h⟩
  · cases h

theorem after_add {k n : Nat} (h : c.after arity p k = some c') :
    c.after arity p (k + n) = c'.after arity p n := by
  induction k generalizing c with
  | zero =>
    obtain rfl := Option.some.inj h
    rw [Nat.zero_add]
  | succ k ih =>
    obtain ⟨d, hstep, hafter⟩ := exists_of_after_succ h
    rw [Nat.add_right_comm, after_succ hstep, ih hafter]

/-- There is a configuration at every time before a later one. -/
theorem exists_after_of_le {k n : Nat} (hkn : k ≤ n) (h : c.after arity p n = some c'') :
    ∃ c', c.after arity p k = some c' ∧ c'.after arity p (n - k) = some c'' := by
  induction k generalizing c n with
  | zero => exact ⟨c, rfl, h⟩
  | succ k ih =>
    obtain ⟨n, rfl⟩ : ∃ j, n = j + 1 := ⟨n - 1, by omega⟩
    obtain ⟨d, hstep, hafter⟩ := exists_of_after_succ h
    obtain ⟨c', hfirst, hrest⟩ := ih (by omega) hafter
    refine ⟨c', by rw [after_succ hstep, hfirst], ?_⟩
    rw [Nat.add_sub_add_right]
    exact hrest

theorem height_le_peak (arity : Int → Nat) (p : Program) (c : Config) (n : Nat) :
    c.height ≤ c.peak arity p n := by
  cases n with
  | zero => exact Nat.le_refl _
  | succ n =>
    rw [peak]
    split
    · exact Nat.le_max_left _ _
    · exact Nat.le_refl _

/-- A step adds lines to the output at most, and keeps the number of global variables. -/
theorem keeps_of_step (h : c.step arity p = .next c') :
    c.output <+: c'.output ∧ c'.globals.length = c.globals.length := by
  unfold step at h
  split at h
  · unfold perform jump enterCall leaveCall reserve at h
    split at h
    all_goals (repeat' split at h) <;> cases h
    all_goals first
      | exact ⟨List.prefix_refl _, rfl⟩
      | exact ⟨List.prefix_append _ _, rfl⟩
      | exact ⟨List.prefix_refl _, List.length_set⟩
  · cases h

theorem keeps_of_after {n : Nat} (h : c.after arity p n = some c') :
    c.output <+: c'.output ∧ c'.globals.length = c.globals.length := by
  induction n generalizing c with
  | zero =>
    obtain rfl := Option.some.inj h
    exact ⟨List.prefix_refl _, rfl⟩
  | succ n ih =>
    obtain ⟨d, hstep, hafter⟩ := exists_of_after_succ h
    obtain ⟨hstart, hlength⟩ := keeps_of_step hstep
    obtain ⟨hstart', hlength'⟩ := ih hafter
    exact ⟨hstart.trans hstart', hlength'.trans hlength⟩

end Config

namespace Machine

/-- Executes `n` instructions. -/
def stepMany : Nat → Exec Unit
  | 0 => pure ()
  | n + 1 => do
    step
    stepMany n

/-- Takes a program in and executes `n` instructions. -/
def trial (program : Program) (n : Nat) : Exec Unit := do
  loadProgram program
  stepMany n

variable {m m' : Machine} {c c' : Config} {arity : Int → Nat}

theorem stepMany_succ_of_ok {n : Nat} (h : step m = .ok () m') :
    stepMany (n + 1) m = stepMany n m' :=
  bind_of_ok h

theorem stepMany_succ_of_error {n : Nat} {e : Stop} (h : step m = .error e m') :
    stepMany (n + 1) m = .error e m' :=
  bind_of_error h

theorem stepMany_add_of_ok {k n : Nat} (h : stepMany k m = .ok () m') :
    stepMany (k + n) m = stepMany n m' := by
  induction k generalizing m with
  | zero =>
    obtain rfl : m = m' := by simpa [stepMany, pure, EStateM.pure] using h
    rw [Nat.zero_add]
  | succ k ih =>
    cases hstep : step m with
    | error e m₁ =>
      rw [stepMany_succ_of_error hstep] at h
      cases h
    | ok u m₁ =>
      rw [stepMany_succ_of_ok hstep] at h
      rw [Nat.add_right_comm, stepMany_succ_of_ok hstep, ih h]

theorem stepMany_add_of_error {k n : Nat} {e : Stop} (h : stepMany k m = .error e m') :
    stepMany (k + n) m = .error e m' := by
  induction k generalizing m with
  | zero => cases h
  | succ k ih =>
    rw [Nat.add_right_comm]
    cases hstep : step m with
    | error e' m₁ =>
      rw [stepMany_succ_of_error hstep] at h ⊢
      exact h
    | ok u m₁ =>
      rw [stepMany_succ_of_ok hstep] at h ⊢
      exact ih h

/-- A machine goes through the configurations for which its stack has room. -/
theorem Shows.stepMany_of_peak_le {n : Nat} (h : m.Shows c)
    (hafter : c.after arity m.program n = some c')
    (hpeak : (c.peak arity m.program n : Int) ≤ m.options.stackSize) :
    ∃ m', stepMany n m = .ok () m' ∧ m'.Shows c' ∧ m.Keeps m' := by
  induction n generalizing m c with
  | zero =>
    obtain rfl := Option.some.inj hafter
    exact ⟨m, rfl, h, rfl, rfl, rfl⟩
  | succ n ih =>
    obtain ⟨d, hstep, hrest⟩ := Config.exists_of_after_succ hafter
    rw [Config.peak_succ hstep] at hpeak
    have harrives := h.step_arrives hstep
    have hheight := Config.height_le_peak arity m.program d n
    have hroom : (d.height : Int) ≤ m.options.stackSize := by omega
    rw [Arrives, if_pos hroom] at harrives
    obtain ⟨m₁, hm₁, hshows, hkeeps⟩ := harrives
    rw [← hkeeps.program] at hrest hpeak
    have hpeak' : (d.peak arity m₁.program n : Int) ≤ m₁.options.stackSize := by
      rw [hkeeps.options]
      omega
    obtain ⟨m', hm', hshows', hkeeps'⟩ := ih hshows hrest hpeak'
    exact ⟨m', by rw [stepMany_succ_of_ok hm₁, hm'], hshows', hkeeps.trans hkeeps'⟩

/-- A machine overflows if its stack has no room for one of the configurations. -/
theorem Shows.stepMany_of_lt_peak {n : Nat} (h : m.Shows c)
    (hafter : c.after arity m.program n = some c')
    (hpeak : m.options.stackSize < c.peak arity m.program n) :
    ∃ f m', stepMany n m = .error (.fault f) m' ∧ f.cause.category = .stackOverflow ∧
      m'.output.toList <+: c'.output := by
  induction n generalizing m c with
  | zero =>
    have hfits := h.holds.fits
    rw [Config.length_words] at hfits
    rw [Config.peak] at hpeak
    omega
  | succ n ih =>
    obtain ⟨d, hstep, hrest⟩ := Config.exists_of_after_succ hafter
    rw [Config.peak_succ hstep] at hpeak
    have harrives := h.step_arrives hstep
    by_cases hroom : (d.height : Int) ≤ m.options.stackSize
    · rw [Arrives, if_pos hroom] at harrives
      obtain ⟨m₁, hm₁, hshows, hkeeps⟩ := harrives
      have hfits := h.holds.fits
      rw [Config.length_words] at hfits
      rw [← hkeeps.program] at hrest hpeak
      have hpeak' : m₁.options.stackSize < d.peak arity m₁.program n := by
        rw [hkeeps.options]
        omega
      obtain ⟨f, m', hm', hcategory, houtput⟩ := ih hshows hrest hpeak'
      exact ⟨f, m', by rw [stepMany_succ_of_ok hm₁, hm'], hcategory, houtput⟩
    · rw [Arrives, if_neg hroom] at harrives
      obtain ⟨f, m', hm', hcategory, houtput⟩ := harrives
      refine ⟨f, m', stepMany_succ_of_error hm', hcategory, ?_⟩
      rw [houtput, h.output]
      exact (Config.keeps_of_after hafter).1

/-- The configuration of a program that has just been taken in. -/
def start (globals : Nat) : Config := ⟨0, List.replicate globals 0, .entry [], []⟩

theorem words_start (globals : Nat) : (start globals).words = List.replicate globals 0 := by
  simp [start, Config.words, Activation.words, Activation.fixed, Activation.temps]

/-- Loading succeeds exactly if there is room for the global variables. -/
theorem loadProgram_eq {program : Program} {globals : Nat} (hglobals : program.globals = globals)
    (m : Machine) :
    if (globals : Int) ≤ m.options.stackSize then
      ∃ m₁, loadProgram program m = .ok () m₁ ∧ m₁.Shows (start globals) ∧
        m₁.options = m.options ∧ m₁.program = program ∧ m₁.running = true
    else
      ∃ f m₁, loadProgram program m = .error (.fault f) m₁ ∧
        f.cause.category = .stackOverflow ∧ m₁.output = #[] := by
  by_cases hroom : (globals : Int) ≤ m.options.stackSize
  · rw [if_pos hroom]
    have hload : ¬m.options.stackSize < program.globals := by omega
    refine ⟨_, if_neg hload, ⟨rfl, rfl, ?_, rfl⟩, rfl, rfl, rfl⟩
    rw [words_start]
    refine ⟨by simpa using hglobals, by simp [emptyStack], by simpa using hroom, ?_⟩
    intro k hk
    simp only [List.length_replicate] at hk
    have hsize : k < m.options.stackSize.toNat := by omega
    simp [emptyStack, hk, hsize]
  · rw [if_neg hroom]
    have hload : m.options.stackSize < program.globals := by omega
    exact ⟨_, _, if_pos hload, rfl, rfl⟩

end Machine

end StackLang
