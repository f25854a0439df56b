import StackLang.Proofs.Preservation

/-!
# Safety of compiled code

Whatever the size of its stack, a machine that runs an accepted program only overflows or divides by
zero. In every state that it reaches otherwise, its registers are within their bounds and its words
are those of a chain of calls; loads and stores name an argument or a variable of the innermost
call, or a global variable.
-/

namespace StackLang

open Meaning (functionNamed? parameterNames)
open Simulation (arityAt)

variable {arity : Int → Nat} {p : Program} {globals : Nat} {m m' : Machine} {c : Config}

/-! ## Reached states -/

/-- A state that a machine has reached in `n` steps: that of the configuration after as many steps,
or after fewer steps if the program has halted there. -/
def Reaches (arity : Int → Nat) (p : Program) (globals n : Nat) (c : Config) : Prop :=
  ∃ k ≤ n, (Machine.start globals).after arity p k = some c ∧
    (k = n ∨ c.step arity p = .halted)

/-- Without stuck configurations a machine overflows, divides by zero, or shows the configuration
that the program has reached. -/
theorem Machine.trial_cases (hglobals : p.globals = globals)
    (hstuck : ∀ n c, (Machine.start globals).after arity p n = some c → c.step arity p ≠ .stuck)
    (m : Machine) (n : Nat) :
    (∃ f m', Machine.trial p n m = .error (.fault f) m' ∧
      (f.cause.category = .stackOverflow ∨ f.cause.category = .divisionByZero)) ∨
    ∃ m' c, Machine.trial p n m = .ok () m' ∧ Reaches arity p globals n c ∧ m'.Shows c ∧
      m'.options = m.options ∧ m'.program = p := by
  rcases Config.after_cases hstuck n with ⟨c, hafter⟩ | ⟨k, hk, c, hafter, hend⟩
  · have htrial := Machine.trial_eq hglobals hafter m
    split at htrial
    · obtain ⟨m', hm', hruns⟩ := htrial
      exact .inr ⟨m', c, hm', ⟨n, le_rfl, hafter, .inl rfl⟩, hruns.shows, hruns.options,
        hruns.program⟩
    · obtain ⟨f, m', hm', hcategory, -⟩ := htrial
      exact .inl ⟨f, m', hm', .inl hcategory⟩
  · -- The program comes to its end before all steps are made.
    obtain ⟨j, rfl⟩ : ∃ j, n = k + (j + 1) := ⟨n - k - 1, by omega⟩
    have htrial := Machine.trial_eq hglobals hafter m
    split at htrial
    · obtain ⟨m₁, hm₁, hruns⟩ := htrial
      rw [Machine.trial_add_of_ok hm₁]
      rcases hend with hhalt | hdivides
      · obtain ⟨m', hm', hshows, hoptions, hprogram⟩ :=
          hruns.shows.stepMany_of_halted (hruns.program.symm ▸ hhalt) (j + 1)
        exact .inr ⟨m', c, hm', ⟨k, Nat.le_add_right _ _, hafter, .inr hhalt⟩, hshows,
          hoptions.trans hruns.options, hprogram.trans hruns.program⟩
      · obtain ⟨f, m', hm', hcategory, -⟩ :=
          hruns.shows.step_dividesByZero (hruns.program.symm ▸ hdivides)
        exact .inl ⟨f, m', Machine.stepMany_succ_of_error hm', .inr hcategory⟩
    · obtain ⟨f, m', hm', hcategory, -⟩ := htrial
      exact .inl ⟨f, m', Machine.trial_add_of_error hm', .inl hcategory⟩

/-! ## Orderly states -/

/-- A state in which the registers are within their bounds and the next instruction names only words
that it may name. -/
structure Orderly (p : Program) (stackSize : Int) (m : Machine) (c : Config) : Prop where
  shows : m.Shows c
  pc : 0 ≤ m.pc ∧ m.pc < p.size
  sp : p.globals ≤ m.sp ∧ m.sp ≤ stackSize
  /-- A load or store names the word of an argument or of a variable of the innermost call. -/
  frame : ∀ i offset, m.current? = some i →
    i.operation = .load offset ∨ i.operation = .store offset →
    ∃ cell, c.activation.cell? offset = some cell ∧
      m.fp + offset = p.globals + c.activation.place c.globals.length cell ∧
      m.word? (m.fp + offset) = some (c.activation.read cell)
  slot : ∀ i slot, m.current? = some i →
    i.operation = .loadGlobal slot ∨ i.operation = .storeGlobal slot →
    0 ≤ slot ∧ slot < p.globals

/-- An operation on a frame that is not stuck names one of its cells. -/
theorem Config.exists_cell {op : Operation} {offset : Int} {size : Nat}
    (hop : op = .load offset ∨ op = .store offset) (h : c.perform arity size op ≠ .stuck) :
    ∃ cell, c.activation.cell? offset = some cell := by
  cases hcell : c.activation.cell? offset with
  | some cell => exact ⟨cell, rfl⟩
  | none =>
    rcases hop with rfl | rfl
    · simp [perform, hcell] at h
    · cases htemps : c.activation.temps with
      | nil => simp [perform, htemps] at h
      | cons v ts => simp [perform, htemps, hcell] at h

/-- An operation on a global variable that is not stuck names one of their slots. -/
theorem Config.slot_lt {op : Operation} {slot : Int} {size : Nat}
    (hop : op = .loadGlobal slot ∨ op = .storeGlobal slot) (h : c.perform arity size op ≠ .stuck) :
    0 ≤ slot ∧ slot < c.globals.length := by
  by_cases hslot : 0 ≤ slot ∧ slot < c.globals.length
  · exact hslot
  · rcases hop with rfl | rfl
    · exact absurd (if_neg hslot) h
    · cases htemps : c.activation.temps with
      | nil => simp [perform, htemps] at h
      | cons v ts => simp [perform, htemps, hslot] at h

/-- The word that a cell of the frame stands for. -/
theorem Machine.Shows.word?_cell (h : m.Shows c) {offset : Int} {cell : Activation.Cell}
    (hcell : c.activation.cell? offset = some cell) :
    m.fp + offset = c.globals.length + c.activation.place c.globals.length cell ∧
      m.word? (m.fp + offset) = some (c.activation.read cell) := by
  have haddress := Activation.base_add_of_cell? hcell c.globals.length
  have hread := Activation.fixed_getElem?_of_cell? hcell c.globals.length
  have hlt := (List.getElem?_eq_some_iff.mp hread).1
  have hfp : m.fp + offset =
      ((c.globals.length + c.activation.place c.globals.length cell : Nat) : Int) := by
    rw [h.fp, Config.base, haddress]
    exact (Int.natCast_add _ _).symm
  refine ⟨hfp.trans (Int.natCast_add _ _), ?_⟩
  have hwords : c.words[c.globals.length + c.activation.place c.globals.length cell]? =
      some (c.activation.read cell) := by
    rw [Config.words, List.getElem?_append_right (Nat.le_add_right _ _), Nat.add_sub_cancel_left,
      Activation.words, List.getElem?_append_left hlt, hread]
  rw [hfp, h.holds.word? (List.getElem?_eq_some_iff.mp hwords).1, hwords]

/-- A machine that shows a configuration which is not stuck is in order. -/
theorem Machine.Shows.orderly (h : m.Shows c) (hprogram : m.program = p)
    (hglobals : p.globals = c.globals.length) (hstuck : c.step arity p ≠ .stuck) :
    Orderly p m.options.stackSize m c := by
  have hpc := Config.pc_lt_size hstuck
  have hperform {i : Instruction} (hi : m.current? = some i) :
      c.perform arity p.size i.operation ≠ .stuck := by
    rw [Machine.current?_of_pc h.pc, hprogram] at hi
    simpa only [Config.step, hi] using hstuck
  refine ⟨h, ⟨?_, ?_⟩, ⟨?_, ?_⟩, ?_, ?_⟩
  · rw [h.pc]
    exact Int.natCast_nonneg _
  · rw [h.pc]
    exact Int.ofNat_lt.mpr hpc
  · rw [h.holds.sp, hglobals, Config.words, List.length_append]
    omega
  · rw [h.holds.sp]
    exact h.holds.fits
  · intro i offset hi hop
    obtain ⟨cell, hcell⟩ := Config.exists_cell hop (hperform hi)
    rw [hglobals]
    exact ⟨cell, hcell, h.word?_cell hcell⟩
  · intro i slot hi hop
    rw [hglobals]
    exact Config.slot_lt hop (hperform hi)

/-! ## Accepted programs -/

/-- Compiled code is safe for every size of the stack and every number of steps: loading and
stepping fault only by an overflow or a division by zero, and otherwise the machine is in order and
shows the configuration that the program has reached. -/
theorem compiled_code_safe {options : CompileOptions} {file source : String} {tree g : Tree}
    {compiled : Compiled} (h : Accepted options file source tree compiled)
    (hmain : functionNamed? tree "main" = some g) (hparameters : parameterNames g = [])
    (m : Machine) (n : Nat) :
    match Machine.trial compiled.program n m with
    | .error e _ => ∃ f, e = .fault f ∧
        (f.cause.category = .stackOverflow ∨ f.cause.category = .divisionByZero)
    | .ok () m' => ∃ c,
        Reaches (arityAt tree compiled.program) compiled.program compiled.program.globals.toNat n
          c ∧
        Orderly compiled.program m.options.stackSize m' c := by
  obtain ⟨globals, target, hglobals, -, -, hstuck⟩ := h.simulates hmain hparameters
  rcases Machine.trial_cases hglobals hstuck m n with
    ⟨f, m', hm', hcategory⟩ | ⟨m', c, hm', hreaches, hshows, hoptions, hprogram⟩
  · rw [hm']
    exact ⟨f, rfl, hcategory⟩
  · rw [hm', hglobals, Int.toNat_natCast]
    refine ⟨c, hreaches, ?_⟩
    obtain ⟨k, -, hafter, -⟩ := hreaches
    have hlength : c.globals.length = globals := by
      rw [(Config.keeps_of_after hafter).2]
      exact List.length_replicate
    rw [← hoptions]
    exact hshows.orderly hprogram (by rw [hglobals, hlength]) (hstuck k c hafter)

theorem compiled_code_safe_countdown :
    ∃ tree compiled g, Accepted {} "countdown" countdown tree compiled ∧
      functionNamed? tree "main" = some g ∧ parameterNames g = [] ∧
      ∀ m n,
        match Machine.trial compiled.program n m with
        | .error e _ => ∃ f, e = .fault f ∧
            (f.cause.category = .stackOverflow ∨ f.cause.category = .divisionByZero)
        | .ok () m' => ∃ c,
            Reaches (arityAt tree compiled.program) compiled.program
              compiled.program.globals.toNat n c ∧
            Orderly compiled.program m.options.stackSize m' c := by
  obtain ⟨tree, compiled, g, haccepted, hmain, hparameters⟩ := accepted_countdown
  exact ⟨tree, compiled, g, haccepted, hmain, hparameters,
    compiled_code_safe haccepted hmain hparameters⟩

end StackLang
