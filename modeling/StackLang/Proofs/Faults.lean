import StackLang.Proofs.Contracts

/-!
# Faults are precise

Before an operation goes on to another address it has done all that can stop it. So a step that
stops is still at the address at which it began, has written nothing, and a fault names that address
and the instruction there. This holds of every program, and wherever the pointers are.

Before an operation writes to the stack it has done all that can make it fault, but for a call: that
saves two words, and may find room for the first one only.
-/

namespace StackLang

/-- The machine can execute the operation. -/
def Operation.isKnown : Operation → Bool
  | .foreign _ => false
  | _ => true

namespace Machine

/-- What no part of a step that started on `m₀` changes. -/
structure Framed (m₀ m : Machine) : Prop where
  program : m.program = m₀.program
  options : m.options = m₀.options
  size : m.stack.size = m₀.stack.size

/-- In the middle of a step that started on `m₀`: what tells how far the run has come is
untouched. -/
structure Unmoved (m₀ m : Machine) : Prop extends Framed m₀ m where
  pc : m.pc = m₀.pc
  output : m.output = m₀.output
  steps : m.steps = m₀.steps
  running : m.running = m₀.running

/-- In the middle of a step that started on `m₀` and has not written to the stack so far. -/
structure Untouched (m₀ m : Machine) : Prop extends Unmoved m₀ m where
  stack : m.stack = m₀.stack

/-- The instruction `i` is a call that has saved the next address in the last place of the
stack. -/
structure BreaksCall (m₀ : Machine) (i : Instruction) (stack : Array Int) : Prop where
  isCall : ∃ target, i.operation = .call target
  isFull : m₀.options.stackSize = m₀.sp + 1
  written : ∃ k, slot? m₀.stack.size m₀.sp = some k ∧
    stack = m₀.stack.setIfInBounds k (m₀.pc + 1)

/-- A stop at the instruction `i` of a step that started on `m₀`: a fault names the instruction and
its address. -/
structure StopsAt (m₀ : Machine) (i : Instruction) (e : Stop) (m : Machine) : Prop
    extends Framed m₀ m where
  pc : m.pc = m₀.pc
  output : m.output = m₀.output
  steps : m.steps = m₀.steps
  running : m.running = (m₀.running && e = .outside)
  fault : ∀ f, e = .fault f → f.pc = m₀.pc ∧ f.instruction = some i
  stack : e ≠ .outside → m.stack = m₀.stack ∨ BreaksCall m₀ i m.stack

/-- A part of a step succeeds and leaves the run where it is, or stops at the instruction `i`. -/
def Precise {α : Type} (m₀ : Machine) (i : Instruction) : EStateM.Result Stop Machine α → Prop :=
  Yields (fun _ => Untouched m₀) (StopsAt m₀ i)

/-- A part of a step succeeds, or stops at the instruction `i`. -/
def Concludes {α : Type} (m₀ : Machine) (i : Instruction) :
    EStateM.Result Stop Machine α → Prop :=
  Yields (fun _ => Framed m₀) (StopsAt m₀ i)

variable {α : Type} {m₀ m : Machine} {i : Instruction}

theorem Precise.concludes {r : EStateM.Result Stop Machine α} (h : Precise m₀ i r) :
    Concludes m₀ i r :=
  h.imp (fun _ _ h => h.toFramed) fun _ _ => id

namespace Unmoved

theorem outside (h : Unmoved m₀ m) : StopsAt m₀ i .outside m :=
  ⟨h.toFramed, h.pc, h.output, h.steps, by simp [h.running], fun _ hf => (by cases hf),
    fun he => absurd rfl he⟩

theorem writeWord (h : Unmoved m₀ m) (index v : Int) :
    Yields (fun _ => Unmoved m₀) (StopsAt m₀ i) (writeWord index v m) := by
  rw [Machine.writeWord]
  cases slot? m.stack.size index with
  | none => exact h.outside
  | some k =>
    have hsize : (m.stack.setIfInBounds k v).size = m₀.stack.size := by
      rw [Array.size_setIfInBounds, h.size]
    exact ⟨⟨h.program, h.options, hsize⟩, h.pc, h.output, h.steps, h.running⟩

/-- Clearing stops only beyond the stack, however much of it is cleared by then. -/
theorem clear (h : Unmoved m₀ m) (index : Int) (count : Nat) :
    Yields (fun _ => Unmoved m₀) (StopsAt m₀ i) (clear index count m) := by
  induction count generalizing index m with
  | zero => exact h
  | succ count ih => exact (h.writeWord index 0).bind fun _ _ h₁ => ih h₁ _

end Unmoved

/-- What a push does: all of it, or nothing but a stop. -/
theorem yields_push (i : Instruction) (v : Int) (m : Machine) :
    Yields (fun _ m' => m.sp < m.options.stackSize ∧ ∃ k, slot? m.stack.size m.sp = some k ∧
        m' = { m with stack := m.stack.setIfInBounds k v, sp := m.sp + 1 })
      (fun e m' => (e = .outside ∧ m' = m) ∨
        (m.options.stackSize ≤ m.sp ∧ m' = { m with running := false } ∧
          ∃ cause, e = .fault ⟨cause, m.pc, some i⟩)) (push i v m) := by
  refine Yields.get_bind (Yields.guard (fun hfull => .inr ⟨hfull, rfl, _, rfl⟩) fun hroom => ?_)
  refine Yields.bind (Q := fun _ m' => ∃ k, slot? m.stack.size m.sp = some k ∧
    m' = { m with stack := m.stack.setIfInBounds k v }) ?_ ?_
  · rw [writeWord]
    cases hk : slot? m.stack.size m.sp with
    | none => exact .inl ⟨rfl, rfl⟩
    | some k => exact ⟨k, rfl, rfl⟩
  · rintro _ m' ⟨k, hk, rfl⟩
    exact ⟨Int.not_le.mp hroom, k, hk, rfl⟩

namespace Untouched

theorem refl (m : Machine) : Untouched m m := ⟨⟨⟨rfl, rfl, rfl⟩, rfl, rfl, rfl, rfl⟩, rfl⟩

/-- The pointers may change. -/
theorem withPointers (h : Untouched m₀ m) (sp fp : Int) : Untouched m₀ { m with sp, fp } :=
  ⟨⟨⟨h.program, h.options, h.size⟩, h.pc, h.output, h.steps, h.running⟩, h.stack⟩

theorem fault (h : Untouched m₀ m) (cause : FaultCause) :
    Precise m₀ i (Machine.fault (α := α) i cause m) :=
  ⟨⟨h.program, h.options, h.size⟩, h.pc, h.output, h.steps, by simp, fun f hf => by
    obtain rfl := Stop.fault.inj hf
    exact ⟨h.pc, rfl⟩, fun _ => .inl h.stack⟩

theorem readWord (h : Untouched m₀ m) (index : Int) : Precise m₀ i (readWord index m) := by
  rw [Machine.readWord]
  cases m.word? index with
  | none => exact h.outside
  | some v => exact h

theorem setSp (h : Untouched m₀ m) (sp : Int) : Precise m₀ i (setSp sp m) :=
  h.withPointers sp m.fp

theorem pop (h : Untouched m₀ m) : Precise m₀ i (pop i m) := by
  refine Yields.get_bind (Yields.guard (fun _ => h.fault (α := Int) _) fun _ => ?_)
  exact (h.setSp _).bind fun _ _ h₁ => h₁.readWord _

theorem top (h : Untouched m₀ m) : Precise m₀ i (top i m) := by
  refine Yields.get_bind (Yields.guard (fun _ => h.fault (α := Int) _) fun _ => ?_)
  exact h.readWord _

theorem checkLive (h : Untouched m₀ m) (address : Int) : Precise m₀ i (checkLive i address m) := by
  change Precise m₀ i ((if ¬(0 ≤ address ∧ address < m.sp) then
    Machine.fault i (.outsideStack address m.sp) else pure ()) m)
  by_cases hlive : 0 ≤ address ∧ address < m.sp
  · rw [if_neg (not_not_intro hlive)]
    exact h
  · rw [if_pos hlive]
    exact h.fault _

/-! ## Operations -/

/-- A push that stops has written nothing. -/
theorem stopsAt_of_push (h : Untouched m₀ m) {e : Stop} {m' : Machine}
    (hstop : (e = .outside ∧ m' = m) ∨ (m.options.stackSize ≤ m.sp ∧
      m' = { m with running := false } ∧ ∃ cause, e = .fault ⟨cause, m.pc, some i⟩)) :
    StopsAt m₀ i e m' := by
  rcases hstop with ⟨rfl, rfl⟩ | ⟨-, rfl, cause, rfl⟩
  · exact h.outside
  · exact h.fault (α := Unit) cause

theorem push (h : Untouched m₀ m) (v : Int) :
    Yields (fun _ => Unmoved m₀) (StopsAt m₀ i) (push i v m) := by
  refine (yields_push i v m).imp ?_ fun _ _ => h.stopsAt_of_push
  rintro _ m' ⟨-, k, -, rfl⟩
  have hsize : (m.stack.setIfInBounds k v).size = m₀.stack.size := by
    rw [Array.size_setIfInBounds, h.size]
  exact ⟨⟨h.program, h.options, hsize⟩, h.pc, h.output, h.steps, h.running⟩

theorem push_advance (h : Untouched m₀ m) (v : Int) :
    Concludes m₀ i ((Machine.push i v >>= fun _ => Machine.advance) m) :=
  (h.push v).bind fun _ _ h₁ => ⟨h₁.program, h₁.options, h₁.size⟩

theorem load (h : Untouched m₀ m) (address : Int) : Concludes m₀ i (load i address m) :=
  (h.checkLive address).bind fun _ _ h₁ => (h₁.readWord address).bind fun v _ h₂ =>
    h₂.push_advance v

theorem store (h : Untouched m₀ m) (address : Int) : Concludes m₀ i (store i address m) :=
  h.pop.bind fun v _ h₁ => (h₁.checkLive address).bind fun _ _ h₂ =>
    (h₂.writeWord address v).bind fun _ _ h₃ => ⟨h₃.program, h₃.options, h₃.size⟩

theorem compute (h : Untouched m₀ m) (op : Operator) : Concludes m₀ i (compute i op m) := by
  refine h.pop.bind fun right m₁ h₁ => h₁.pop.bind fun left m₂ h₂ => ?_
  cases op.compute? left right with
  | some v => exact h₂.push_advance v
  | none => exact (h₂.fault (α := Unit) .divisionByZero).concludes

theorem printText (h : Untouched m₀ m) : Concludes m₀ i (printText i m) := by
  refine h.pop.bind fun index m₁ h₁ => Yields.get_bind ?_
  by_cases hindex : 0 ≤ index
  · rw [if_pos hindex]
    cases m₁.program.constants[index.toNat]? with
    | some line => exact ⟨h₁.program, h₁.options, h₁.size⟩
    | none => exact (h₁.fault (α := Unit) _).concludes
  · rw [if_neg hindex]
    exact (h₁.fault (α := Unit) _).concludes

theorem jump (h : Untouched m₀ m) (target : Int) : Concludes m₀ i (jump i target m) :=
  Yields.get_bind (Yields.guard (fun _ => (h.fault (α := Unit) _).concludes) fun _ =>
    ⟨h.program, h.options, h.size⟩)

theorem jumpIf (h : Untouched m₀ m) (c : Int → Prop) [DecidablePred c] (target : Int) :
    Concludes m₀ i
      ((Machine.pop i >>= fun v => if c v then Machine.jump i target else Machine.advance) m) := by
  refine h.pop.bind fun v m₁ h₁ => ?_
  by_cases hc : c v
  · rw [if_pos hc]
    exact h₁.jump target
  · rw [if_neg hc]
    exact ⟨h₁.program, h₁.options, h₁.size⟩

theorem enter (h : Untouched m₀ m) (locals : Int) : Concludes m₀ i (enter i locals m) := by
  refine Yields.get_bind (Yields.guard (fun _ => (h.fault (α := Unit) _).concludes) fun _ => ?_)
  refine Yields.guard (fun _ => (h.fault (α := Unit) _).concludes) fun _ => ?_
  exact (h.clear _ _).bind fun _ _ h₁ => ⟨h₁.program, h₁.options, h₁.size⟩

/-- A return takes the address to go on at last. -/
theorem giveBack (h : Untouched m₀ m) (count : Int) : Concludes m₀ i (giveBack i count m) := by
  refine h.pop.bind fun v m₁ h₁ => ?_
  refine (h₁.withPointers m₁.fp m₁.fp).pop.bind fun fp m₂ h₂ => ?_
  refine (h₂.withPointers m₂.sp fp).pop.bind fun address m₃ h₃ => ?_
  refine Yields.get_bind (Yields.guard (fun _ => (h₃.fault (α := Unit) _).concludes) fun _ => ?_)
  exact (h₃.setSp _).bind fun _ _ h₄ => (h₄.push v).bind fun _ _ h₅ =>
    ⟨h₅.program, h₅.options, h₅.size⟩

end Untouched

/-- A call may fault between the two words that it saves. -/
theorem concludes_call {target : Int} (hi : i.operation = .call target) (m : Machine) :
    Concludes m i (call i target m) := by
  have h := Untouched.refl m
  refine Yields.get_bind (Yields.guard (fun _ => (h.fault (α := Unit) _).concludes) fun _ => ?_)
  refine ((yields_push i (m.pc + 1) m).imp (fun _ _ h => h) fun _ _ => h.stopsAt_of_push).bind ?_
  rintro _ m₁ ⟨hroom, k, hk, rfl⟩
  have hsize : (m.stack.setIfInBounds k (m.pc + 1)).size = m.stack.size :=
    Array.size_setIfInBounds
  refine ((yields_push i m.fp _).imp (fun _ _ h => h) ?_).bind ?_
  · rintro e m₂ (⟨rfl, rfl⟩ | ⟨hfull, rfl, cause, rfl⟩)
    · exact ⟨⟨rfl, rfl, hsize⟩, rfl, rfl, rfl, by simp, fun _ hf => (by cases hf),
        fun he => absurd rfl he⟩
    · have hlast : m.options.stackSize ≤ m.sp + 1 := hfull
      refine ⟨⟨rfl, rfl, hsize⟩, rfl, rfl, rfl, by simp, fun f hf => ?_, fun _ => .inr
        ⟨⟨target, hi⟩, by omega, k, hk, rfl⟩⟩
      obtain rfl := Stop.fault.inj hf
      exact ⟨rfl, rfl⟩
  · rintro _ m₂ ⟨-, k', -, rfl⟩
    refine ⟨rfl, rfl, ?_⟩
    rw [← hsize]
    exact Array.size_setIfInBounds

theorem concludes_execute (i : Instruction) (m : Machine) : Concludes m i (execute i m) := by
  have h := Untouched.refl m
  have hframed (sp pc : Int) (running : Bool) : Framed m { m with sp, pc, running } :=
    ⟨rfl, rfl, rfl⟩
  unfold Machine.execute
  cases hi : i.operation with
  | push v => exact h.push_advance _
  | load offset => exact h.load _
  | store offset => exact h.store _
  | loadGlobal slot => exact h.load _
  | storeGlobal slot => exact h.store _
  | pop => exact h.pop.bind fun _ _ h₁ => ⟨h₁.program, h₁.options, h₁.size⟩
  | compute op => exact h.compute op
  | negate => exact h.pop.bind fun _ _ h₁ => h₁.push_advance _
  | jump target => exact h.jump target
  | jumpIfZero target => exact h.jumpIf (· = 0) target
  | jumpIfNonzero target => exact h.jumpIf (· ≠ 0) target
  | call target => exact concludes_call hi m
  | giveBack count => exact h.giveBack count
  | enter locals => exact h.enter locals
  | leave => exact hframed m.fp (m.pc + 1) m.running
  | skip => exact hframed m.sp (m.pc + 1) m.running
  | halt => exact hframed m.sp m.pc false
  | print => exact h.top.bind fun _ _ h₁ => ⟨h₁.program, h₁.options, h₁.size⟩
  | printText => exact h.printText
  | foreign x => exact (h.fault (α := Unit) _).concludes

/-! ## Steps -/

/-- The number of steps after an instruction: one more if the machine knows it. -/
def stepsAfter (m : Machine) (i : Instruction) : Nat :=
  if i.operation.isKnown then m.steps + 1 else m.steps

/-- A step executes the instruction that the machine is at, and counts it if it is known. -/
theorem step_eq_execute_stepsAfter (hi : m.current? = some i) :
    step m = execute i { m with steps := m.stepsAfter i } := by
  simp only [step, hi, stepsAfter]
  cases i.operation <;> rfl

theorem concludes_step (hi : m.current? = some i) :
    Concludes { m with steps := m.stepsAfter i } i (step m) := by
  rw [step_eq_execute_stepsAfter hi]
  exact concludes_execute i _

/-- A step keeps the program, the options and the size of the stack. -/
theorem framed_step (m : Machine) : Retains (Framed m) (step m) := by
  cases hi : m.current? with
  | none =>
    obtain ⟨f, hstep⟩ := exists_step_eq_error hi
    rw [hstep]
    exact ⟨rfl, rfl, rfl⟩
  | some i =>
    exact (concludes_step hi).imp (fun _ _ h => ⟨h.program, h.options, h.size⟩)
      fun _ _ h => ⟨h.program, h.options, h.size⟩

/-- A fault of a step names the address at which the machine was, and the instruction there. -/
theorem fault_of_step {f : Fault} {m' : Machine} (h : step m = .error (.fault f) m') :
    f.pc = m.pc ∧ f.instruction = m.current? := by
  cases hi : m.current? with
  | none =>
    simp only [step, hi] at h
    cases h
    exact ⟨rfl, rfl⟩
  | some i =>
    have hstops := concludes_step hi
    rw [h] at hstops
    exact hstops.fault f rfl

/-! ## Runs -/

/-- The machine has taken the program `p` in, and its stack has its size. -/
structure Carries (p : Program) (m : Machine) : Prop where
  program : m.program = p
  size : m.stack.size = m.options.stackSize.toNat

theorem carries_load (p : Program) (m : Machine) : Retains (Carries p) (loadProgram p m) := by
  unfold loadProgram
  split
  · exact ⟨rfl, by simp [emptyStack]⟩
  · exact ⟨rfl, by simp [emptyStack]⟩

theorem Carries.step {p : Program} (h : m.Carries p) : Retains (Carries p) (step m) := by
  have hkept {m' : Machine} (hm' : Framed m m') : Carries p m' :=
    ⟨hm'.program.trans h.program, by rw [hm'.size, hm'.options, h.size]⟩
  exact (framed_step m).imp (fun _ _ => hkept) fun _ _ => hkept

/-- Whatever the program does, the machine keeps it and the size of the stack. -/
theorem carries_iterate (p : Program) (m : Machine) (n : Nat) :
    Carries p ((leave Machine.step)^[n] (leave (loadProgram p) m)) :=
  iterate_leave_step (fun _ h => h.step) (carries_load p m).leave n

/-- There is an instruction exactly at the addresses of the program. -/
theorem current?_eq_none_iff : m.current? = none ↔ ¬(0 ≤ m.pc ∧ m.pc < m.program.size) := by
  unfold current?
  split
  · rw [Array.getElem?_eq_none_iff, Program.size]
    omega
  · simp [*]

/-- A call that breaks writes to the place that its stack pointer counts, and this is in the
stack. -/
theorem BreaksCall.getElem?_eq {stack : Array Int} (h : BreaksCall m₀ i stack)
    (hsize : m₀.stack.size = m₀.options.stackSize.toNat) {k : Nat} (hk : (k : Int) ≠ m₀.sp) :
    stack[k]? = m₀.stack[k]? := by
  obtain ⟨j, hj, rfl⟩ := h.written
  have hfull := h.isFull
  have hplace : (j : Int) = m₀.sp := by
    have hlt := slot?_lt hj
    unfold slot? at hj
    split at hj <;> split at hj <;> cases hj <;> omega
  exact Array.getElem?_setIfInBounds_ne (by omega)

/-- Take a program in and let the machine step on, whatever faults there are. A step that stops is
still at its address and has written no line. If it faults, the fault names the address and the
instruction there, the machine is not running any more, the step counts if it was that of a known
operation, and the stack is as it was, but for the place after its live words if the operation was
a call. If it reaches beyond the stack, the machine runs as before. -/
theorem stops_precisely (p : Program) (m₀ : Machine) (n : Nat) {m m' : Machine} {e : Stop}
    (hm : (leave Machine.step)^[n] (leave (loadProgram p) m₀) = m)
    (hstep : Machine.step m = .error e m') :
    m'.pc = m.pc ∧ m'.output = m.output ∧
      (e = .outside → m'.running = m.running) ∧
      ∀ f, e = .fault f →
        f.pc = m.pc ∧
        f.instruction = (if 0 ≤ m.pc then p.code[m.pc.toNat]? else none) ∧
        (f.instruction = none ↔ ¬(0 ≤ m.pc ∧ m.pc < p.size)) ∧
        m'.running = false ∧
        m'.steps = (if f.instruction.any (·.operation.isKnown) then m.steps + 1 else m.steps) ∧
        (∀ k : Nat, (k : Int) ≠ m.sp → m'.stack[k]? = m.stack[k]?) ∧
        (m'.stack ≠ m.stack → ∃ i target, f.instruction = some i ∧ i.operation = .call target) := by
  have hcarries := carries_iterate p m₀ n
  rw [hm] at hcarries
  have hcurrent : m.current? = if 0 ≤ m.pc then p.code[m.pc.toNat]? else none := by
    rw [current?, hcarries.program]
  have hnone : m.current? = none ↔ ¬(0 ≤ m.pc ∧ m.pc < p.size) := by
    rw [current?_eq_none_iff, hcarries.program]
  cases hi : m.current? with
  | none =>
    simp only [Machine.step, hi] at hstep
    cases hstep
    refine ⟨rfl, rfl, fun he => (by cases he), ?_⟩
    rintro f ⟨⟩
    exact ⟨rfl, by rw [← hcurrent, hi], by simpa [hi] using hnone, rfl, rfl, fun _ _ => rfl,
      fun hne => absurd rfl hne⟩
  | some i =>
    have hstops := concludes_step hi
    rw [hstep] at hstops
    refine ⟨hstops.pc, hstops.output, fun he => ?_, ?_⟩
    · have hrunning := hstops.running
      simpa [he] using hrunning
    rintro f rfl
    obtain ⟨hpc, hinstruction⟩ := hstops.fault f rfl
    have hstack := hstops.stack (by simp)
    refine ⟨hpc, by rw [hinstruction, ← hcurrent, hi], ?_, by simpa using hstops.running, ?_,
      fun k hk => ?_, fun hne => ?_⟩
    · rw [hinstruction, ← hi]
      exact hnone
    · rw [hinstruction]
      exact hstops.steps
    · rcases hstack with hsame | hbroken
      · rw [hsame]
      · exact hbroken.getElem?_eq hcarries.size hk
    · obtain ⟨target, hcall⟩ := (hstack.resolve_left hne).isCall
      exact ⟨i, target, hinstruction, hcall⟩

/-- A function that calls itself before anything else. -/
def plunge : Program := { code := #[⟨.call 0, none, none⟩] }

/-- The second call finds room for one word only. -/
theorem stops_precisely_plunge :
    ∃ m m' f,
      (leave Machine.step)^[1] (leave (loadProgram plunge) (initial { stackSize := 3 })) = m ∧
      Machine.step m = .error (.fault f) m' ∧ m.stack = #[1, 0, 0] ∧ m'.stack = #[1, 0, 1] ∧
      f.pc = 0 ∧ m'.steps = m.steps + 1 ∧ m'.running = false ∧
      ∀ k : Nat, (k : Int) ≠ m.sp → m'.stack[k]? = m.stack[k]? := by
  obtain ⟨m, hm⟩ : ∃ m, (leave Machine.step)^[1]
      (leave (loadProgram plunge) (initial { stackSize := 3 })) = m := ⟨_, rfl⟩
  obtain ⟨f, m', hstep⟩ : ∃ f m', Machine.step m = .error (.fault f) m' := by
    subst hm
    exact ⟨_, _, rfl⟩
  obtain ⟨-, -, -, hfault⟩ := stops_precisely plunge _ 1 hm hstep
  obtain ⟨hpc, hinstruction, -, hrunning, hsteps, hstack, -⟩ := hfault f rfl
  subst hm
  cases hstep
  exact ⟨_, _, _, rfl, rfl, rfl, rfl, hpc, hsteps, hrunning, hstack⟩

end Machine

end StackLang
