import StackLang.Proofs.Contracts

/-!
# The registers of the machine

Programs made by hand can do anything to the machine, but they cannot bring its stack pointer out of
the stack, and the frame pointer only by a return that takes a bad word for the base of a frame. As
long as both are in range, no step reaches beyond the stack: it succeeds or it faults.
-/

namespace StackLang.Machine

/-- Both pointers are within a stack of a size. -/
structure InRange (size : Int) (m : Machine) : Prop where
  sp_nonneg : 0 ≤ m.sp
  sp_le : m.sp ≤ size
  fp_nonneg : 0 ≤ m.fp
  fp_le : m.fp ≤ size

instance (size : Int) (m : Machine) : Decidable (InRange size m) :=
  decidable_of_iff (0 ≤ m.sp ∧ m.sp ≤ size ∧ 0 ≤ m.fp ∧ m.fp ≤ size)
    ⟨fun ⟨a, b, c, d⟩ => ⟨a, b, c, d⟩, fun h => ⟨h.sp_nonneg, h.sp_le, h.fp_nonneg, h.fp_le⟩⟩

/-- The stack has its size, and the stack pointer is within it. -/
structure Bounded (m : Machine) : Prop where
  size : m.stack.size = m.options.stackSize.toNat
  sp_nonneg : 0 ≤ m.sp
  sp_le : m.sp ≤ m.options.stackSize

/-- In the middle of a step that started on `m₀`: the stack and its pointer are in order, and so far
the other registers are untouched. -/
structure Calm (m₀ m : Machine) : Prop extends Bounded m where
  options : m.options = m₀.options
  program : m.program = m₀.program
  fp : m.fp = m₀.fp
  pc : m.pc = m₀.pc

/-- A part of a step succeeds with `Q` or faults, and leaves the other registers untouched. -/
def Calmly {α : Type} (m₀ : Machine) (Q : α → Machine → Prop) :
    EStateM.Result Stop Machine α → Prop :=
  Yields (fun a m => Calm m₀ m ∧ Q a m) fun e m => Calm m₀ m ∧ e ≠ .outside

variable {m₀ m : Machine} {i : Instruction} {v index : Int}

theorem Bounded.slot?_eq (h : m.Bounded) (hnonneg : 0 ≤ index)
    (hlt : index < m.options.stackSize) : slot? m.stack.size index = some index.toNat := by
  have hsize := h.size
  rw [slot?, if_pos hnonneg, if_pos (by omega)]

theorem Bounded.exists_word? (h : m.Bounded) (hnonneg : 0 ≤ index)
    (hlt : index < m.options.stackSize) : ∃ v, m.word? index = some v := by
  have hsize := h.size
  rw [word?, h.slot?_eq hnonneg hlt]
  exact ⟨_, Array.getElem?_eq_getElem (by omega)⟩

namespace Calm

theorem refl (h : m.Bounded) : Calm m m := ⟨h, rfl, rfl, rfl, rfl⟩

theorem setSp (h : Calm m₀ m) {sp : Int} (hnonneg : 0 ≤ sp) (hle : sp ≤ m.options.stackSize) :
    Calm m₀ { m with sp } :=
  ⟨⟨h.size, hnonneg, hle⟩, h.options, h.program, h.fp, h.pc⟩

/-- The stack pointer may go to the base of the frame. -/
theorem toBase (h : Calm m₀ m) (hrange : InRange m₀.options.stackSize m₀) :
    Calm m₀ { m with sp := m.fp } := by
  have hsp := h.setSp hrange.fp_nonneg (h.options ▸ hrange.fp_le)
  rwa [← h.fp] at hsp

theorem written (h : Calm m₀ m) (line : String) :
    Calm m₀ { m with output := m.output.push line } :=
  ⟨⟨h.size, h.sp_nonneg, h.sp_le⟩, h.options, h.program, h.fp, h.pc⟩

/-- A fault leaves the registers as they are. -/
theorem stopped (h : Calm m₀ m) (f : Fault) :
    Calm m₀ { m with running := false } ∧ Stop.fault f ≠ .outside :=
  ⟨⟨⟨h.size, h.sp_nonneg, h.sp_le⟩, h.options, h.program, h.fp, h.pc⟩, Stop.noConfusion⟩

theorem readWord (h : Calm m₀ m) (hnonneg : 0 ≤ index) (hlt : index < m.options.stackSize) :
    Calmly m₀ (fun v m' => m' = m ∧ m.word? index = some v) (readWord index m) := by
  obtain ⟨v, hv⟩ := h.exists_word? hnonneg hlt
  rw [Machine.readWord, hv]
  exact ⟨h, rfl, rfl⟩

theorem writeWord (h : Calm m₀ m) (hnonneg : 0 ≤ index) (hlt : index < m.options.stackSize) :
    Calmly m₀ (fun _ m' => m'.sp = m.sp) (writeWord index v m) := by
  rw [Machine.writeWord, h.slot?_eq hnonneg hlt]
  have hsize : (m.stack.setIfInBounds index.toNat v).size = m.options.stackSize.toNat := by
    rw [Array.size_setIfInBounds, h.size]
  exact ⟨⟨⟨hsize, h.sp_nonneg, h.sp_le⟩, h.options, h.program, h.fp, h.pc⟩, rfl⟩

theorem push (h : Calm m₀ m) (v : Int) :
    Calmly m₀ (fun _ m' => m'.sp = m.sp + 1) (push i v m) := by
  refine Yields.get_bind (Yields.guard (fun _ => h.stopped _) fun hroom => ?_)
  refine (h.writeWord h.sp_nonneg (Int.not_le.mp hroom)).bind fun _ m' ⟨h', hsp⟩ => ?_
  have hoptions : m'.options = m.options := h'.options.trans h.options.symm
  refine ⟨h'.setSp (Int.le_trans h.sp_nonneg (by omega)) ?_, rfl⟩
  rw [hoptions]
  omega

/-- A popped word is the topmost one, and the stack stays as it is. -/
theorem pop (h : Calm m₀ m) :
    Calmly m₀ (fun v m' => m'.stack = m.stack ∧ m'.sp = m.sp - 1 ∧ m.word? (m.sp - 1) = some v)
      (pop i m) := by
  have hle := h.sp_le
  refine Yields.get_bind (Yields.guard (fun _ => h.stopped _) fun hsome => ?_)
  have h' : Calm m₀ { m with sp := m.sp - 1 } := h.setSp (by omega) (by omega)
  refine Yields.bind (Q := fun _ m' => m' = { m with sp := m.sp - 1 }) rfl fun _ m' hm' => ?_
  subst hm'
  refine (h'.readWord (by omega) (by change m.sp - 1 < m.options.stackSize; omega)).imp ?_
    fun _ _ herror => herror
  rintro v m' ⟨h'', rfl, hv⟩
  exact ⟨h'', rfl, rfl, hv⟩

theorem top (h : Calm m₀ m) : Calmly m₀ (fun _ _ => True) (top i m) := by
  have hle := h.sp_le
  refine Yields.get_bind (Yields.guard (fun _ => h.stopped _) fun hsome => ?_)
  refine (h.readWord (by omega) (by omega)).imp (fun _ _ hok => ⟨hok.1, trivial⟩)
    fun _ _ herror => herror

theorem checkLive (h : Calm m₀ m) (address : Int) :
    Calmly m₀ (fun _ m' => m' = m ∧ 0 ≤ address ∧ address < m.sp) (checkLive i address m) := by
  change Calmly m₀ _ ((if ¬(0 ≤ address ∧ address < m.sp) then
    fault i (.outsideStack address m.sp) else pure ()) m)
  by_cases hlive : 0 ≤ address ∧ address < m.sp
  · rw [if_neg (not_not_intro hlive)]
    exact ⟨h, rfl, hlive⟩
  · rw [if_pos hlive]
    exact h.stopped _

/-- All registers that are cleared are within the stack. -/
theorem clear (h : Calm m₀ m) (count : Nat) (hnonneg : 0 ≤ index)
    (hle : index + count ≤ m.options.stackSize) :
    Calmly m₀ (fun _ _ => True) (clear index count m) := by
  induction count generalizing index m with
  | zero => exact ⟨h, trivial⟩
  | succ count ih =>
    refine (h.writeWord hnonneg (by omega)).bind fun _ m' ⟨h', _⟩ => ?_
    have hoptions : m'.options = m.options := h'.options.trans h.options.symm
    refine ih h' (by omega) ?_
    rw [hoptions]
    omega

end Calm

/-! ## Operations -/

/-- Where an operation leads if it succeeds. A return also drops the frame and the arguments. -/
def LeadsTo (op : Operation) (m m' : Machine) : Prop :=
  match op with
  | .jump target | .call target => m'.pc = target
  | .jumpIfZero target | .jumpIfNonzero target => m'.pc = target ∨ m'.pc = m.pc + 1
  | .giveBack count =>
    m.word? (m.fp - 2) = some m'.pc ∧ 0 ≤ count ∧ 0 < m'.sp ∧ m'.sp = m.fp - 1 - count
  | .halt => m'.pc = m.pc
  | _ => m'.pc = m.pc + 1

/-- A step that started on `m₀` goes on at an address with `A`, or faults, and keeps the frame. -/
def Proceeds (m₀ : Machine) (A : Int → Prop) : EStateM.Result Stop Machine Unit → Prop :=
  Yields (fun _ m => Calm { m₀ with pc := m.pc } m ∧ A m.pc) fun e m => Calm m₀ m ∧ e ≠ .outside

namespace Calm

theorem goto (h : Calm m₀ m) (target : Int) : Proceeds m₀ (· = target) (goto target m) :=
  ⟨⟨⟨h.size, h.sp_nonneg, h.sp_le⟩, h.options, h.program, h.fp, rfl⟩, rfl⟩

theorem advance (h : Calm m₀ m) : Proceeds m₀ (· = m₀.pc + 1) (advance m) := by
  rw [← h.pc]
  exact h.goto (m.pc + 1)

theorem push_advance (h : Calm m₀ m) (v : Int) :
    Proceeds m₀ (· = m₀.pc + 1) ((Machine.push i v >>= fun _ => Machine.advance) m) :=
  (h.push v).bind fun _ _ h' => h'.1.advance

theorem load (h : Calm m₀ m) (address : Int) :
    Proceeds m₀ (· = m₀.pc + 1) (load i address m) := by
  refine (h.checkLive address).bind ?_
  rintro _ m' ⟨-, rfl, hnonneg, hlt⟩
  have hle := h.sp_le
  refine (h.readWord hnonneg (by omega)).bind ?_
  rintro v m' ⟨h', -, -⟩
  exact h'.push_advance v

theorem store (h : Calm m₀ m) (address : Int) :
    Proceeds m₀ (· = m₀.pc + 1) (store i address m) := by
  refine h.pop.bind ?_
  rintro v m₁ ⟨h₁, -⟩
  refine (h₁.checkLive address).bind ?_
  rintro _ m₂ ⟨-, rfl, hnonneg, hlt⟩
  have hle := h₁.sp_le
  refine (h₁.writeWord hnonneg (by omega)).bind ?_
  rintro _ m₃ ⟨h₃, -⟩
  exact h₃.advance

theorem compute (h : Calm m₀ m) (op : Operator) :
    Proceeds m₀ (· = m₀.pc + 1) (compute i op m) := by
  refine h.pop.bind ?_
  rintro right m₁ ⟨h₁, -⟩
  refine h₁.pop.bind ?_
  rintro left m₂ ⟨h₂, -⟩
  cases op.compute? left right with
  | some v => exact h₂.push_advance v
  | none => exact h₂.stopped _

theorem printText (h : Calm m₀ m) : Proceeds m₀ (· = m₀.pc + 1) (printText i m) := by
  refine h.pop.bind ?_
  rintro index m₁ ⟨h₁, -⟩
  refine Yields.get_bind ?_
  by_cases hindex : 0 ≤ index
  · rw [if_pos hindex]
    cases m₁.program.constants[index.toNat]? with
    | some line => exact (h₁.written line).advance
    | none => exact h₁.stopped _
  · rw [if_neg hindex]
    exact h₁.stopped _

theorem jump (h : Calm m₀ m) (target : Int) : Proceeds m₀ (· = target) (jump i target m) :=
  Yields.get_bind (Yields.guard (fun _ => h.stopped _) fun _ => h.goto target)

theorem jumpIf (h : Calm m₀ m) (c : Int → Prop) [DecidablePred c] (target : Int) :
    Proceeds m₀ (fun pc => pc = target ∨ pc = m₀.pc + 1)
      ((Machine.pop i >>= fun v => if c v then Machine.jump i target else Machine.advance) m) := by
  refine h.pop.bind ?_
  rintro v m₁ ⟨h₁, -⟩
  by_cases hc : c v
  · rw [if_pos hc]
    exact (h₁.jump target).imp (fun _ _ h' => ⟨h'.1, .inl h'.2⟩) fun _ _ h' => h'
  · rw [if_neg hc]
    exact h₁.advance.imp (fun _ _ h' => ⟨h'.1, .inr h'.2⟩) fun _ _ h' => h'

theorem enter (h : Calm m₀ m) (locals : Int) :
    Proceeds m₀ (· = m₀.pc + 1) (enter i locals m) := by
  refine Yields.get_bind (Yields.guard (fun _ => h.stopped _) fun hroom => ?_)
  refine Yields.guard (fun _ => h.stopped _) fun henough => ?_
  have hle := h.sp_le
  refine (h.clear locals.toNat h.sp_nonneg (by omega)).bind ?_
  rintro _ m₁ ⟨h₁, -⟩
  have hoptions : m₁.options = m.options := h₁.options.trans h.options.symm
  have h₂ : Calm m₀ { m₁ with sp := m.sp + locals } :=
    h₁.setSp (Int.not_lt.mp henough) (by rw [hoptions]; exact Int.not_lt.mp hroom)
  exact h₂.advance

end Calm

/-! ## Calls, returns and steps -/

/-- The bases of frames that an operation may leave, whether it succeeds or faults. -/
def LeavesBase (op : Operation) (m : Machine) (fp : Int) : Prop :=
  match op with
  | .call _ => 0 ≤ fp ∧ fp ≤ m.options.stackSize
  | .giveBack _ => fp = m.fp ∨ m.word? (m.fp - 1) = some fp
  | _ => fp = m.fp

/-- What an operation does to the registers, whether it succeeds or faults. -/
structure Steers (op : Operation) (m m' : Machine) : Prop extends Bounded m' where
  options : m'.options = m.options
  program : m'.program = m.program
  base : LeavesBase op m m'.fp

/-- An operation succeeds and leads on, or faults. -/
def Steered (op : Operation) (m : Machine) : EStateM.Result Stop Machine Unit → Prop :=
  Yields (fun _ m' => Steers op m m' ∧ LeadsTo op m m') fun e m' => Steers op m m' ∧ e ≠ .outside

theorem Proceeds.steered {op : Operation} {A : Int → Prop} {r : EStateM.Result Stop Machine Unit}
    (h : Proceeds m₀ A r) (hbase : LeavesBase op m₀ m₀.fp)
    (hnext : ∀ m, A m.pc → LeadsTo op m₀ m) : Steered op m₀ r := by
  refine h.imp (fun _ m ⟨hcalm, hpc⟩ => ⟨⟨hcalm.toBounded, hcalm.options, hcalm.program, ?_⟩,
    hnext _ hpc⟩) fun _ m ⟨hcalm, hfault⟩ => ⟨⟨hcalm.toBounded, hcalm.options, hcalm.program, ?_⟩,
    hfault⟩
  · rwa [show m.fp = m₀.fp from hcalm.fp]
  · rwa [hcalm.fp]

/-- A call starts its frame at the stack pointer. -/
theorem Calm.call (h : Calm m₀ m) (target : Int) (hbase : LeavesBase (.call target) m₀ m₀.fp) :
    Steered (.call target) m₀ (call i target m) := by
  have hfault {m' : Machine} {e : Stop} (h' : Calm m₀ m' ∧ e ≠ .outside) :
      Steers (.call target) m₀ m' ∧ e ≠ .outside :=
    ⟨⟨h'.1.toBounded, h'.1.options, h'.1.program, h'.1.fp ▸ hbase⟩, h'.2⟩
  refine Yields.get_bind (Yields.guard (fun _ => hfault (h.stopped _)) fun _ => ?_)
  refine ((h.push (m.pc + 1)).imp (fun _ _ h' => h'.1) fun _ _ => hfault).bind fun _ m₁ h₁ => ?_
  refine ((h₁.push m.fp).imp (fun _ _ h' => h'.1) fun _ _ => hfault).bind fun _ m₂ h₂ => ?_
  refine ⟨⟨⟨h₂.size, h₂.sp_nonneg, h₂.sp_le⟩, h₂.options, h₂.program, h₂.sp_nonneg, ?_⟩, rfl⟩
  rw [← h₂.options]
  exact h₂.sp_le

/-- A return takes the base and the address from below the frame. -/
theorem Calm.giveBack (h : Calm m₀ m) (hstack : m.stack = m₀.stack)
    (hrange : InRange m₀.options.stackSize m₀) (count : Int) :
    Steered (.giveBack count) m₀ (giveBack i count m) := by
  have hfault {m' : Machine} {e : Stop} (h' : Calm m₀ m' ∧ e ≠ .outside) :
      Steers (.giveBack count) m₀ m' ∧ e ≠ .outside :=
    ⟨⟨h'.1.toBounded, h'.1.options, h'.1.program, .inl h'.1.fp⟩, h'.2⟩
  refine (h.pop.imp (fun _ _ h' => h') fun _ _ => hfault).bind ?_
  rintro v m₁ ⟨h₁, hstack₁, -, -⟩
  refine ((h₁.toBase hrange).pop.imp (fun _ _ h' => h') fun _ _ => hfault).bind ?_
  rintro fp m₂ ⟨h₂, hstack₂, hsp₂, hfp⟩
  have hword (index : Int) : m₁.word? index = m₀.word? index := by
    rw [word?, word?, hstack₁.trans hstack]
  have hsaved : m₀.word? (m₀.fp - 1) = some fp := by
    rw [← hword, ← h₁.fp]
    exact hfp
  -- from here on the frame is the one that was saved, whatever it is
  have h₃ : Calm { m₀ with fp } { m₂ with fp } :=
    ⟨⟨h₂.size, h₂.sp_nonneg, h₂.sp_le⟩, h₂.options, h₂.program, rfl, h₂.pc⟩
  have hfault' {m' : Machine} {e : Stop} (h' : Calm { m₀ with fp } m' ∧ e ≠ .outside) :
      Steers (.giveBack count) m₀ m' ∧ e ≠ .outside :=
    ⟨⟨h'.1.toBounded, h'.1.options, h'.1.program, .inr (h'.1.fp ▸ hsaved)⟩, h'.2⟩
  refine (h₃.pop.imp (fun _ _ h' => h') fun _ _ => hfault').bind ?_
  rintro address m₄ ⟨h₄, -, hsp₄, haddress⟩
  refine Yields.get_bind (Yields.guard (fun _ => hfault' (h₄.stopped _)) fun hcount => ?_)
  have hle := h₄.sp_le
  have h₅ : Calm { m₀ with fp } { m₄ with sp := m₄.sp - count } :=
    h₄.setSp (by omega) (by omega)
  refine ((h₅.push v).imp (fun _ _ h' => h') fun _ _ => hfault').bind ?_
  rintro _ m₆ ⟨h₆, hsp₆⟩
  refine ⟨⟨⟨h₆.size, h₆.sp_nonneg, h₆.sp_le⟩, h₆.options, h₆.program, .inr (h₆.fp ▸ hsaved)⟩, ?_⟩
  have hsecond : m₀.fp - 2 = m₂.sp - 1 := by
    rw [hsp₂, ← h₁.fp]
    exact (Int.sub_sub m₁.fp 1 1).symm
  have hsp₄' : m₄.sp = m₂.sp - 1 := hsp₄
  have hsp₆' : m₆.sp = m₄.sp - count + 1 := hsp₆
  refine ⟨?_, by omega, ?_, ?_⟩
  · change m₀.word? (m₀.fp - 2) = some address
    rw [hsecond, ← haddress, ← hword, word?, word?, ← hstack₂]
  · change 0 < m₆.sp
    omega
  · change m₆.sp = m₀.fp - 1 - count
    omega

theorem Calm.execute (h : Calm m₀ m) (hstack : m.stack = m₀.stack)
    (hrange : InRange m₀.options.stackSize m₀) (i : Instruction) :
    Steered i.operation m₀ (execute i m) := by
  unfold Machine.execute
  cases i.operation with
  | push v => exact (h.push_advance _).steered rfl fun _ hpc => hpc
  | load offset => exact (h.load _).steered rfl fun _ hpc => hpc
  | store offset => exact (h.store _).steered rfl fun _ hpc => hpc
  | loadGlobal slot => exact (h.load _).steered rfl fun _ hpc => hpc
  | storeGlobal slot => exact (h.store _).steered rfl fun _ hpc => hpc
  | pop =>
    refine Proceeds.steered (A := (· = m₀.pc + 1)) ?_ rfl fun _ hpc => hpc
    exact h.pop.bind fun _ _ h' => h'.1.advance
  | compute op => exact (h.compute op).steered rfl fun _ hpc => hpc
  | negate =>
    refine Proceeds.steered (A := (· = m₀.pc + 1)) ?_ rfl fun _ hpc => hpc
    exact h.pop.bind fun v _ h' => h'.1.push_advance (Word.wrap (-v))
  | jump target => exact (h.jump target).steered rfl fun _ hpc => hpc
  | jumpIfZero target => exact (h.jumpIf (· = 0) target).steered rfl fun _ hpc => hpc
  | jumpIfNonzero target => exact (h.jumpIf (· ≠ 0) target).steered rfl fun _ hpc => hpc
  | call target => exact h.call target ⟨hrange.fp_nonneg, hrange.fp_le⟩
  | giveBack count => exact h.giveBack hstack hrange count
  | enter locals => exact (h.enter locals).steered rfl fun _ hpc => hpc
  | leave => exact (h.toBase hrange).advance.steered rfl fun _ hpc => hpc
  | skip => exact h.advance.steered rfl fun _ hpc => hpc
  | halt =>
    exact ⟨⟨⟨h.size, h.sp_nonneg, h.sp_le⟩, h.options, h.program, h.fp⟩, h.pc⟩
  | print =>
    refine Proceeds.steered (A := (· = m₀.pc + 1)) ?_ rfl fun _ hpc => hpc
    exact h.top.bind fun v _ h' => (h'.1.written (Text.decimal v)).advance
  | printText => exact h.printText.steered rfl fun _ hpc => hpc
  | foreign x =>
    exact ⟨⟨⟨h.size, h.sp_nonneg, h.sp_le⟩, h.options, h.program, h.fp⟩, Stop.noConfusion⟩

/-- A step from a machine with both pointers in range. -/
theorem Bounded.steered_step (h : m.Bounded) (hrange : InRange m.options.stackSize m)
    (hi : m.current? = some i) : Steered i.operation m (step m) := by
  obtain ⟨steps, hstep⟩ := exists_step_eq_execute hi
  have hcalm : Calm m { m with steps } :=
    ⟨⟨h.size, h.sp_nonneg, h.sp_le⟩, rfl, rfl, rfl, rfl⟩
  rw [hstep]
  exact hcalm.execute rfl hrange i

/-- The step from `m` to `m'` is a return that takes a word beyond a stack of a size for the base of
a frame. -/
def ReturnsBeyond (size : Int) (m m' : Machine) : Prop :=
  ∃ i count, m.current? = some i ∧ i.operation = .giveBack count ∧
    m.word? (m.fp - 1) = some m'.fp ∧ ¬(0 ≤ m'.fp ∧ m'.fp ≤ size)

/-- What a step leaves of a machine with both pointers in range. -/
structure Leaves (m m' : Machine) : Prop extends Bounded m' where
  options : m'.options = m.options
  range : InRange m.options.stackSize m' ∨ ReturnsBeyond m.options.stackSize m m'

theorem Steers.leaves {m' : Machine} (h : Steers i.operation m m')
    (hrange : InRange m.options.stackSize m) (hi : m.current? = some i) : Leaves m m' := by
  refine ⟨h.toBounded, h.options, ?_⟩
  by_cases hfp : 0 ≤ m'.fp ∧ m'.fp ≤ m.options.stackSize
  · exact .inl ⟨h.sp_nonneg, h.options ▸ h.sp_le, hfp.1, hfp.2⟩
  · -- the frame pointer has changed, and not by a call
    have hold := hrange.fp_nonneg
    have hold' := hrange.fp_le
    have hbase := h.base
    unfold LeavesBase at hbase
    split at hbase
    · exact absurd hbase hfp
    · rename_i count hop
      rcases hbase with hsame | hword
      · rw [hsame] at hfp
        exact absurd ⟨hold, hold'⟩ hfp
      · exact .inr ⟨i, count, hi, hop, hword, hfp⟩
    · rw [hbase] at hfp
      exact absurd ⟨hold, hold'⟩ hfp

/-- A step that starts with both pointers in range does not reach beyond the stack. -/
theorem Bounded.step (h : m.Bounded) (hrange : InRange m.options.stackSize m) :
    Yields (fun _ m' => Leaves m m') (fun e m' => Leaves m m' ∧ e ≠ .outside) (step m) := by
  cases hi : m.current? with
  | none =>
    obtain ⟨f, hstep⟩ := exists_step_eq_error hi
    rw [hstep]
    exact ⟨⟨⟨h.size, h.sp_nonneg, h.sp_le⟩, rfl,
      .inl ⟨h.sp_nonneg, h.sp_le, hrange.fp_nonneg, hrange.fp_le⟩⟩, Stop.noConfusion⟩
  | some i =>
    exact (h.steered_step hrange hi).imp (fun _ _ hok => hok.1.leaves hrange hi)
      fun _ _ herror => ⟨herror.1.leaves hrange hi, herror.2⟩

theorem Bounded.leaves_step (h : m.Bounded) (hrange : InRange m.options.stackSize m) :
    Leaves m (leave Machine.step m) :=
  Yields.leave (I := Leaves m) ((h.step hrange).imp (fun _ _ hok => hok) fun _ _ herror => herror.1)

/-! ## Runs -/

/-- A machine that has just taken a program in. -/
theorem bounded_of_load {p : Program} {m₀ : Machine} (hglobals : 0 ≤ p.globals)
    (hload : loadProgram p m = .ok () m₀) :
    m₀.Bounded ∧ InRange m₀.options.stackSize m₀ ∧ m₀.options = m.options := by
  unfold loadProgram at hload
  split at hload
  · cases hload
  · rename_i hroom
    cases hload
    have hroom' := Int.not_lt.mp hroom
    exact ⟨⟨by simp [emptyStack], hglobals, hroom'⟩,
      ⟨hglobals, hroom', Int.le_refl 0, Int.le_trans hglobals hroom'⟩, rfl⟩

/-- As long as both pointers have been in range, the stack and its pointer are in order. -/
theorem bounded_iterate (h : m.Bounded) (n : Nat)
    (hrange : ∀ k < n, InRange m.options.stackSize ((leave Machine.step)^[k] m)) :
    ((leave Machine.step)^[n] m).Bounded ∧ ((leave Machine.step)^[n] m).options = m.options := by
  induction n with
  | zero => exact ⟨h, rfl⟩
  | succ n ih =>
    obtain ⟨hbounded, hoptions⟩ := ih fun k hk => hrange k (Nat.lt_succ_of_lt hk)
    have hlast := hrange n (Nat.lt_succ_self n)
    rw [← hoptions] at hlast
    have hleaves := hbounded.leaves_step hlast
    rw [Function.iterate_succ_apply']
    exact ⟨hleaves.toBounded, hleaves.options.trans hoptions⟩

/-- A function that writes over the base that its call has saved, and returns. -/
def forgery : Program :=
  { code := #[⟨.call 1, none, none⟩, ⟨.push 99, none, none⟩, ⟨.store (-1), none, none⟩,
      ⟨.push 5, none, none⟩, ⟨.giveBack 0, none, none⟩] }

end StackLang.Machine
