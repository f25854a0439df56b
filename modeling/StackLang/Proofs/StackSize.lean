import StackLang.Proofs.Faults
import StackLang.Proofs.Relocation

/-!
# The size of the stack

A disciplined program does the same on every stack that has room for it. Two machines with stacks of
different sizes go side by side, through the same addresses and with the same live words, until the
smaller stack overflows; any other fault arises on both, at the same instruction.
-/

namespace StackLang

/-! ## One program on two stacks -/

namespace Discipline

variable {At : Nat → Point → Prop} {g address : Nat} {point : Point} {op : Operation} {p : Program}

/-- A program side by side with itself, on stacks of two sizes; only points belong together. -/
def ownStage (At : Nat → Point → Prop) (p : Program) {size size' : Int} (h : size ≤ size') :
    Stage where
  size := size
  size' := size'
  size_le := h
  program := p
  program' := p
  Related := fun a a' => a' = a ∧ ∃ point, At a point

/-- An operation that may stand at a point leads to points. -/
theorem Obeys.corresponds {size size' : Int} (hle : size ≤ size')
    (h : Obeys At g address point op) :
    op.Corresponds (ownStage At p hle).Related address address op := by
  have hself {a : Nat} {point : Point} (hpoint : At a point) :
      (ownStage At p hle).Related a a := ⟨rfl, point, hpoint⟩
  cases h with
  | jump goal => exact .jump (hself goal)
  | jumpIfZero enough goal next => exact .jumpIfZero (hself goal) (hself next)
  | call goal arguments next => exact .call (hself goal) (hself next)
  | begin goal next => exact .call (hself goal) (hself next)
  | missing negative => exact .missing negative
  | giveBack enough => exact .giveBack _
  | halt => exact .halt
  | push v next => exact .plain trivial (hself next)
  | load known next => exact .plain trivial (hself next)
  | store known enough next => exact .plain trivial (hself next)
  | loadGlobal known next => exact .plain trivial (hself next)
  | storeGlobal known enough next => exact .plain trivial (hself next)
  | pop enough next => exact .plain trivial (hself next)
  | compute op enough next => exact .plain trivial (hself next)
  | negate enough next => exact .plain trivial (hself next)
  | print enough next => exact .plain trivial (hself next)
  | enter next => exact .plain trivial (hself next)

theorem Disciplined.relocates (hp : Disciplined p g At) {size size' : Int} (hle : size ≤ size') :
    (ownStage At p hle).Relocates where
  globals := rfl
  start := ⟨rfl, _, hp.start⟩
  code := by
    rintro _ a ⟨rfl, point, hpoint⟩
    obtain ⟨i, hi, hobeys⟩ := hp.obeys a point hpoint
    exact ⟨i, i, hi, hi, hobeys.corresponds hle⟩

end Discipline

/-! ## The same state -/

namespace Machine

/-- Two machines with the same program have come equally far, with the same live words. -/
structure SameState (m m' : Machine) : Prop where
  program : m'.program = m.program
  pc : m'.pc = m.pc
  sp : m'.sp = m.sp
  fp : m'.fp = m.fp
  running : m'.running = m.running
  live : m'.live = m.live
  output : m'.output = m.output
  steps : m'.steps = m.steps
  result? : m'.result? = m.result?

namespace SameState

variable {m m' : Machine}

theorem current? (h : SameState m m') : m'.current? = m.current? := by
  rw [Machine.current?, Machine.current?, h.pc, h.program]

theorem isActive (h : SameState m m') : m'.isActive = m.isActive := by
  rw [Machine.isActive, Machine.isActive, h.running, h.pc, h.program]

/-- Words that are equal below the stack pointer are the same live words. -/
theorem live_eq {m m' : Machine} (hsp : m'.sp = m.sp) (hnonneg : 0 ≤ m.sp)
    (hwords : ∀ k : Nat, (k : Int) < m.sp → m'.stack[k]? = m.stack[k]?) : m'.live = m.live := by
  have hcount (x : Machine) (hx : x.sp = m.sp) : x.live = x.stack.toList.take m.sp.toNat := by
    rw [Machine.live, liveFrom, liveCount, hx, if_pos hnonneg, Array.toList_extract,
      List.extract_eq_take_drop, List.drop_zero, Nat.sub_zero]
  rw [hcount m' hsp, hcount m rfl]
  refine List.ext_getElem? fun k => ?_
  rw [List.getElem?_take, List.getElem?_take, Array.getElem?_toList, Array.getElem?_toList]
  by_cases hk : k < m.sp.toNat
  · rw [if_pos hk, if_pos hk, hwords k (by omega)]
  · rw [if_neg hk, if_neg hk]

/-- Machines side by side at one address of one program are in the same state. -/
theorem of_twin {S : Stage} {V : Shared} (h : Twin S V m m') (hprogram : S.program' = S.program)
    (hpc : V.pc' = V.pc) (hrelated : ∀ a a', S.Related a a' → a' = a) : SameState m m' := by
  have hsp : m'.sp = m.sp := h.right.sp.trans h.left.sp.symm
  have hnonneg : 0 ≤ m.sp := h.left.sp ▸ h.sp_nonneg
  have hmatch {saved : Prop} {v v' : Int} (hv : S.Match saved v v') : v' = v := by
    by_cases hsaved : saved
    · obtain ⟨a, a', rfl, rfl, ha⟩ := hv.1 hsaved
      rw [hrelated a a' ha]
    · exact hv.2 hsaved
  refine ⟨?_, ?_, hsp, h.right.fp.trans h.left.fp.symm, h.running, ?_, h.output, h.steps, ?_⟩
  · rw [h.right.program, h.left.program, hprogram]
  · rw [h.right.pc, h.left.pc, hpc]
  · refine live_eq hsp hnonneg fun k hk => ?_
    obtain ⟨v, v', hv, hv', hvalue⟩ := h.words k (h.left.sp ▸ hk)
    rw [hv, hv', hmatch hvalue]
  · rw [Machine.result?, Machine.result?, hsp]
    split
    · obtain ⟨k, hk⟩ := Int.eq_ofNat_of_zero_le (a := m.sp - 1) (by omega)
      obtain ⟨v, v', hv, hv', hvalue⟩ := h.exists_word? (k := k) (by rw [← h.left.sp]; omega)
      rw [hk, hv, hv', hmatch hvalue]
    · rfl

end SameState

/-- A run on a larger stack is in the same state as one on a smaller stack, or has ended with the
same fault, unless the smaller stack has overflowed. -/
inductive Outlasts : EStateM.Result Stop Machine Unit → EStateM.Result Stop Machine Unit → Prop
  | ok {m m' : Machine} (same : SameState m m') : Outlasts (.ok () m) (.ok () m')
  | fault {m m' : Machine} {f : Fault} (output : m'.output = m.output) :
    Outlasts (.error (.fault f) m) (.error (.fault f) m')
  | overflow {m : Machine} {f : Fault} {r : EStateM.Result Stop Machine Unit}
      (category : f.cause.category = .stackOverflow) : Outlasts (.error (.fault f) m) r

end Machine

namespace Discipline

open Machine

variable {At : Nat → Point → Prop} {g n : Nat} {p : Program} {m m' m₁ m₁' : Machine}

theorem Reached.sameState {size size' : Int} {hle : size ≤ size'}
    (h : Reached (ownStage At p hle) At g m n m₁ m₁') : SameState m₁ m₁' := by
  obtain ⟨⟨ws, fs, ⟨-, V, a, a', htwin, -, hpc, hpc', hrelated⟩, -⟩, -⟩ := h
  refine .of_twin htwin rfl ?_ fun a a' ha => ha.1
  rw [hpc, hpc', hrelated.1]

/-- A step from the same state on a larger stack ends in the same state or with the same fault,
unless the smaller stack overflows. -/
theorem outlasts_step {size size' : Int} {hle : size ≤ size'} {D : Nat → Prop}
    (hsame : SameState m₁ m₁')
    (h : Agree (ownStage At p hle) (SameExcept D)
      (fun _ m₁ _ m₁' => Reached (ownStage At p hle) At g m n m₁ m₁') (step m₁) (step m₁')) :
    Outlasts (step m₁) (step m₁') := by
  generalize hs : step m₁ = s, hs' : step m₁' = s' at h
  cases h with
  | ok hreached => exact .ok hreached.sameState
  | @fault cause i i' m₂ m₂' hexcept =>
    -- the cause is the same, and so are the address and the instruction before the step
    obtain ⟨hpc, hinstruction⟩ := fault_of_step hs
    obtain ⟨hpc', hinstruction'⟩ := fault_of_step hs'
    rw [hsame.pc, ← hpc] at hpc'
    rw [hsame.current?, ← hinstruction] at hinstruction'
    simp only at hpc' hinstruction'
    rw [hpc', hinstruction']
    exact .fault hexcept.output
  | overflow hlt hcategory => exact .overflow hcategory

/-- Any number of steps on a larger stack. -/
theorem Disciplined.outlasts_trial (hp : Disciplined p g At)
    (hle : m.options.stackSize ≤ m'.options.stackSize) (n : Nat) :
    Outlasts (trial p n m) (trial p n m') := by
  have hagree (k : Nat) : Agree (ownStage At p hle) (SameExcept (ReturnSlot p m k))
      (fun _ m₁ _ m₁' => Reached (ownStage At p hle) At g m k m₁ m₁') (trial p k m)
      (trial p k m') :=
    agree_trial (S := ownStage At p hle) hp (hp.relocates hle) rfl rfl k
  induction n with
  | zero =>
    have hload := loadProgram_eq_fresh p m
    by_cases hroom : m.options.stackSize < p.globals
    · rw [if_pos hroom] at hload
      rw [trial_of_load_error hload]
      exact .overflow rfl
    · rw [if_neg hroom] at hload
      have hzero := hagree 0
      rw [trial_of_load_ok hload] at hzero ⊢
      generalize trial p 0 m' = r at hzero ⊢
      cases hzero with
      | ok hreached => exact .ok hreached.sameState
  | succ n ih =>
    have hnext := hagree (n + 1)
    generalize hr : trial p n m = r, hr' : trial p n m' = r' at ih
    cases ih with
    | @ok m₁ m₁' hsame =>
      have hstep : trial p (n + 1) m = step m₁ := by
        rw [trial_add_of_ok hr, stepMany_one]
      have hstep' : trial p (n + 1) m' = step m₁' := by
        rw [trial_add_of_ok hr', stepMany_one]
      rw [hstep, hstep'] at hnext ⊢
      exact outlasts_step hsame hnext
    | fault houtput =>
      rw [trial_add_of_error hr, trial_add_of_error hr']
      exact .fault houtput
    | overflow hcategory =>
      rw [trial_add_of_error hr]
      exact .overflow hcategory

end Discipline

/-! ## Whole runs -/

namespace Machine

/-- An execution gets to its last step allowed, or to the first step at which the machine is not
active. -/
theorem exists_reached (p : Program) (m : Machine) (fuel : Nat) :
    ∃ n ≤ fuel, (∀ k < n, ∃ m₁, trial p k m = .ok () m₁ ∧ m₁.isActive = true) ∧
      ∀ m₁, trial p n m = .ok () m₁ → m₁.isActive = true → n = fuel := by
  induction fuel with
  | zero => exact ⟨0, Nat.le_refl 0, fun k hk => absurd hk (Nat.not_lt_zero k), fun _ _ _ => rfl⟩
  | succ fuel ih =>
    obtain ⟨n, hn, hbusy, hlast⟩ := ih
    by_cases hactive : ∃ m₁, trial p n m = .ok () m₁ ∧ m₁.isActive = true
    · obtain ⟨m₁, hm₁, hm₁'⟩ := hactive
      obtain rfl := hlast m₁ hm₁ hm₁'
      refine ⟨n + 1, Nat.le_refl _, fun k hk => ?_, fun _ _ _ => rfl⟩
      rcases Nat.lt_succ_iff_lt_or_eq.mp hk with hk | rfl
      · exact hbusy k hk
      · exact ⟨m₁, hm₁, hm₁'⟩
    · exact ⟨n, Nat.le_succ_of_le hn, hbusy, fun m₁ hm₁ hm₁' => absurd ⟨m₁, hm₁, hm₁'⟩ hactive⟩

/-- A whole run on a larger stack ends in the same way and has written the same lines, unless the
smaller stack overflows. -/
theorem executeProgram_of_outlasts {p : Program} {m m' : Machine}
    (h : ∀ n, Outlasts (trial p n m) (trial p n m')) (hroom : m.options.shortage? = none)
    (hroom' : m'.options.shortage? = none) (fuel : Nat) :
    (∃ f, (executeProgram fuel m p).ending = .interrupted (.stop (.fault f)) ∧
        f.cause.category = .stackOverflow) ∨
      (executeProgram fuel m' p).ending = (executeProgram fuel m p).ending ∧
        (executeProgram fuel m' p).written = (executeProgram fuel m p).written := by
  obtain ⟨n, hn, hactive, hlast⟩ := exists_reached p m fuel
  have hbusy : Busy p m n := by
    intro k hk m₁ hm₁
    obtain ⟨m₂, hm₂, hm₂'⟩ := hactive k hk
    rw [hm₂] at hm₁
    cases hm₁
    exact hm₂'
  have hbusy' : Busy p m' n := by
    intro k hk m₁ hm₁
    obtain ⟨m₂, hm₂, hm₂'⟩ := hactive k hk
    have hk' := h k
    rw [hm₁, hm₂] at hk'
    cases hk' with
    | ok hsame => rw [hsame.isActive, hm₂']
  have hend := h n
  generalize hr : trial p n m = r, hr' : trial p n m' = r' at hend
  rw [Execution.written, Execution.written]
  cases hend with
  | @ok m₁ m₁' hsame =>
    refine .inr ?_
    cases hm₁ : m₁.isActive with
    | true =>
      obtain rfl := hlast m₁ hr hm₁
      obtain ⟨hending, hmachine⟩ := executeProgram_of_active hroom hr hbusy hm₁
      obtain ⟨hending', hmachine'⟩ :=
        executeProgram_of_active hroom' hr' hbusy' (hsame.isActive.trans hm₁)
      exact ⟨hending'.trans hending.symm, by rw [hmachine, hmachine', hsame.output]⟩
    | false =>
      obtain ⟨hending, houtput⟩ := executeProgram_of_inactive hroom hr hbusy hm₁ hn
      obtain ⟨hending', houtput'⟩ :=
        executeProgram_of_inactive hroom' hr' hbusy' (hsame.isActive.trans hm₁) hn
      exact ⟨by rw [hending, hending', hsame.result?], by rw [houtput, houtput', hsame.output]⟩
  | fault hsame =>
    obtain ⟨hending, hmachine⟩ := executeProgram_of_error hroom hr hbusy hn
    obtain ⟨hending', hmachine'⟩ := executeProgram_of_error hroom' hr' hbusy' hn
    exact .inr ⟨hending'.trans hending.symm, by rw [hmachine, hmachine', hsame]⟩
  | overflow hcategory =>
    exact .inl ⟨_, (executeProgram_of_error hroom hr hbusy hn).1, hcategory⟩

end Machine

/-- A larger stack never changes a run of an accepted program. After any number of steps the two
machines are in the same state, or they have ended with the same fault at the same instruction,
unless the smaller stack has overflowed. So a whole run with a larger stack can only lose an
overflow: else it ends in the same way and has written the same lines. -/
theorem larger_stack_same_run {options : CompileOptions} {file source : String} {tree : Tree}
    {compiled : Compiled} (h : Accepted options file source tree compiled) {m m' : Machine}
    (hle : m.options.stackSize ≤ m'.options.stackSize) :
    (∀ n, Machine.Outlasts (Machine.trial compiled.program n m)
      (Machine.trial compiled.program n m')) ∧
    (m.options.shortage? = none → m'.options.shortage? = none → ∀ fuel,
      (∃ f, (Machine.executeProgram fuel m compiled.program).ending =
          .interrupted (.stop (.fault f)) ∧ f.cause.category = .stackOverflow) ∨
        (Machine.executeProgram fuel m' compiled.program).ending =
            (Machine.executeProgram fuel m compiled.program).ending ∧
          (Machine.executeProgram fuel m' compiled.program).written =
            (Machine.executeProgram fuel m compiled.program).written) := by
  obtain ⟨statements, fs, s, hclean, hprogram⟩ := h.exists_clean
  have hp := Discipline.disciplined_program hclean options.comments
  rw [← hprogram] at hp
  have houtlasts := hp.outlasts_trial hle
  exact ⟨houtlasts, Machine.executeProgram_of_outlasts houtlasts⟩

/-- A program that needs more and more of the stack, and then divides by zero. -/
def descent : String :=
  "fn main() -> int \x7b return down(3) \x7d " ++
    "fn down(n: int) -> int \x7b if (n == 0) \x7b return print(7) / n \x7d " ++
    "return down(n - 1) \x7d"

theorem larger_stack_same_run_descent :
    ∃ tree compiled, Accepted {} "descent" descent tree compiled ∧
      (Machine.initial { stackSize := 12 }).options.stackSize ≤
        (Machine.initial { stackSize := 64 }).options.stackSize ∧
      (∀ n, Machine.Outlasts (Machine.trial compiled.program n (.initial { stackSize := 12 }))
        (Machine.trial compiled.program n (.initial { stackSize := 64 }))) ∧
      ∀ fuel,
        (∃ f, (Machine.executeProgram fuel (.initial { stackSize := 12 }) compiled.program).ending =
            .interrupted (.stop (.fault f)) ∧ f.cause.category = .stackOverflow) ∨
          (Machine.executeProgram fuel (.initial { stackSize := 64 }) compiled.program).ending =
              (Machine.executeProgram fuel (.initial { stackSize := 12 }) compiled.program).ending ∧
            (Machine.executeProgram fuel (.initial { stackSize := 64 }) compiled.program).written =
              (Machine.executeProgram fuel (.initial { stackSize := 12 })
                compiled.program).written := by
  obtain ⟨tree, compiled, haccepted⟩ :=
    Accepted.exists_of_toBool {} "descent" descent (by decide) (by decide +kernel)
  have hle : (Machine.initial { stackSize := 12 }).options.stackSize ≤
      (Machine.initial { stackSize := 64 }).options.stackSize := by decide
  obtain ⟨houtlasts, hexecutes⟩ := larger_stack_same_run haccepted hle
  exact ⟨tree, compiled, haccepted, hle, houtlasts, hexecutes (by decide) (by decide)⟩

end StackLang
