import StackLang.Proofs.Contracts

/-!
# The words of the stack

Whatever a program does, and however far the pointers have gone astray, all words on the stack are
words: arithmetic wraps, and what a call saves is an address of the program or the base of a frame,
which is a stack pointer right after a push that succeeded.
-/

namespace StackLang.Machine

open Word

/-- All words on the stack and the base of the frame are words, and all addresses can be. -/
structure Worded (m : Machine) : Prop where
  words : ∀ v ∈ m.stack, IsWord v
  fp : IsWord m.fp
  stack_le : (m.stack.size : Int) ≤ greatest
  program_le : (m.program.size : Int) ≤ greatest

/-- A part of a step leaves words only, and `Q` if it succeeds. -/
def Wordly {α : Type} (Q : α → Machine → Prop) : EStateM.Result Stop Machine α → Prop :=
  Yields (fun a m => Worded m ∧ Q a m) fun _ => Worded

variable {m : Machine} {i : Instruction} {v index : Int}

/-- An index of the stack, from either end, is well within the words. -/
theorem isWord_succ_of_slot? {size k : Nat} (hsize : (size : Int) ≤ greatest)
    (h : slot? size index = some k) : IsWord (index + 1) := by
  unfold slot? at h
  rw [IsWord]
  rw [greatest] at hsize ⊢
  rw [least]
  split at h <;> split at h <;> first | omega | cases h

namespace Worded

theorem congr {m' : Machine} (h : m.Worded) (hstack : m'.stack = m.stack) (hfp : m'.fp = m.fp)
    (hprogram : m'.program = m.program) : m'.Worded :=
  ⟨hstack ▸ h.words, hfp ▸ h.fp, hstack ▸ h.stack_le, hprogram ▸ h.program_le⟩

theorem readWord (h : m.Worded) (index : Int) :
    Wordly (fun v _ => IsWord v) (readWord index m) := by
  rw [Machine.readWord]
  cases hv : m.word? index with
  | none => exact h
  | some v =>
    obtain ⟨k, -, hk⟩ := Option.bind_eq_some_iff.mp hv
    exact ⟨h, h.words v (Array.mem_of_getElem? hk)⟩

/-- Where a word is written there is a place for it. -/
theorem writeWord (h : m.Worded) (index : Int) (hv : IsWord v) :
    Wordly (fun _ _ => IsWord (index + 1)) (writeWord index v m) := by
  rw [Machine.writeWord]
  cases hk : slot? m.stack.size index with
  | none => exact h
  | some k =>
    have hsize : (m.stack.setIfInBounds k v).size = m.stack.size := Array.size_setIfInBounds
    refine ⟨⟨fun w hw => ?_, h.fp, hsize ▸ h.stack_le, h.program_le⟩,
      isWord_succ_of_slot? h.stack_le hk⟩
    rcases Array.mem_or_eq_of_mem_setIfInBounds hw with hw | rfl
    · exact h.words w hw
    · exact hv

/-- After a push that succeeds the stack pointer can be the base of a frame. -/
theorem push (h : m.Worded) (hv : IsWord v) : Wordly (fun _ m' => IsWord m'.sp) (push i v m) := by
  refine Yields.get_bind (Yields.guard (fun _ => h.congr rfl rfl rfl) fun _ => ?_)
  refine (h.writeWord m.sp hv).bind ?_
  rintro _ m' ⟨h', hsp⟩
  exact ⟨h'.congr rfl rfl rfl, hsp⟩

theorem pop (h : m.Worded) : Wordly (fun v _ => IsWord v) (pop i m) := by
  refine Yields.get_bind (Yields.guard (fun _ => h.congr rfl rfl rfl) fun _ => ?_)
  have hdown : Worded { m with sp := m.sp - 1 } := h.congr rfl rfl rfl
  exact hdown.readWord (m.sp - 1)

theorem top (h : m.Worded) : Wordly (fun _ _ => True) (top i m) := by
  refine Yields.get_bind (Yields.guard (fun _ => h.congr rfl rfl rfl) fun _ => ?_)
  exact (h.readWord (m.sp - 1)).imp (fun _ _ h' => ⟨h'.1, trivial⟩) fun _ _ h' => h'

theorem checkLive (h : m.Worded) (address : Int) :
    Wordly (fun _ _ => True) (checkLive i address m) := by
  change Wordly _ ((if ¬(0 ≤ address ∧ address < m.sp) then
    fault i (.outsideStack address m.sp) else pure ()) m)
  split
  · exact h.congr rfl rfl rfl
  · exact ⟨h, trivial⟩

theorem clear (h : m.Worded) (index : Int) (count : Nat) :
    Wordly (fun _ _ => True) (clear index count m) := by
  induction count generalizing index m with
  | zero => exact ⟨h, trivial⟩
  | succ count ih =>
    exact (h.writeWord index (by decide)).bind fun _ _ h' => ih h'.1 (index + 1)

/-! ## Operations -/

theorem push_advance (h : m.Worded) (hv : IsWord v) :
    Retains Worded
      ((Machine.push i v >>= fun _ => Machine.advance) m) :=
  (h.push hv).bind fun _ _ h' => h'.1.congr rfl rfl rfl

theorem load (h : m.Worded) (address : Int) :
    Retains Worded (load i address m) :=
  (h.checkLive address).bind fun _ _ h₁ => (h₁.1.readWord address).bind fun _ _ h₂ =>
    h₂.1.push_advance h₂.2

theorem store (h : m.Worded) (address : Int) :
    Retains Worded (store i address m) :=
  h.pop.bind fun _ _ h₁ => (h₁.1.checkLive address).bind fun _ _ h₂ =>
    (h₂.1.writeWord address h₁.2).bind fun _ _ h₃ => h₃.1.congr rfl rfl rfl

theorem compute (h : m.Worded) (op : Operator) :
    Retains Worded (compute i op m) := by
  refine h.pop.bind fun right m₁ h₁ => h₁.1.pop.bind fun left m₂ h₂ => ?_
  cases hv : op.compute? left right with
  | some v => exact h₂.1.push_advance (Operator.isWord_of_compute? hv)
  | none => exact h₂.1.congr rfl rfl rfl

theorem printText (h : m.Worded) :
    Retains Worded (printText i m) := by
  refine h.pop.bind fun index m₁ h₁ => Yields.get_bind ?_
  by_cases hindex : 0 ≤ index
  · rw [if_pos hindex]
    cases m₁.program.constants[index.toNat]? with
    | some line => exact h₁.1.congr rfl rfl rfl
    | none => exact h₁.1.congr rfl rfl rfl
  · rw [if_neg hindex]
    exact h₁.1.congr rfl rfl rfl

theorem jump (h : m.Worded) (target : Int) :
    Retains Worded (jump i target m) :=
  Yields.get_bind (Yields.guard (fun _ => h.congr rfl rfl rfl) fun _ => h.congr rfl rfl rfl)

theorem jumpIf (h : m.Worded) (c : Int → Prop) [DecidablePred c] (target : Int) :
    Retains Worded
      ((Machine.pop i >>= fun v => if c v then Machine.jump i target else Machine.advance) m) := by
  refine h.pop.bind fun v m₁ h₁ => ?_
  split
  · exact h₁.1.jump target
  · exact h₁.1.congr rfl rfl rfl

theorem enter (h : m.Worded) (locals : Int) :
    Retains Worded (enter i locals m) := by
  refine Yields.get_bind (Yields.guard (fun _ => h.congr rfl rfl rfl) fun _ => ?_)
  refine Yields.guard (fun _ => h.congr rfl rfl rfl) fun _ => ?_
  exact (h.clear m.sp locals.toNat).bind fun _ _ h' => h'.1.congr rfl rfl rfl

/-- A call saves the next address and the base of the frame. -/
theorem call (h : m.Worded) (hnext : IsWord (m.pc + 1)) (target : Int) :
    Retains Worded (call i target m) := by
  refine Yields.get_bind (Yields.guard (fun _ => h.congr rfl rfl rfl) fun _ => ?_)
  refine (h.push hnext).bind fun _ m₁ h₁ => (h₁.1.push h.fp).bind fun _ m₂ h₂ => ?_
  exact ⟨h₂.1.words, h₂.2, h₂.1.stack_le, h₂.1.program_le⟩

/-- A return takes the base of the frame from the stack. -/
theorem giveBack (h : m.Worded) (count : Int) :
    Retains Worded (giveBack i count m) := by
  refine h.pop.bind fun v m₁ h₁ => ?_
  have hbase : Worded { m₁ with sp := m₁.fp } := h₁.1.congr rfl rfl rfl
  refine hbase.pop.bind fun fp m₂ h₂ => ?_
  have hframe : Worded { m₂ with fp } := ⟨h₂.1.words, h₂.2, h₂.1.stack_le, h₂.1.program_le⟩
  refine hframe.pop.bind fun address m₃ h₃ => Yields.get_bind ?_
  refine Yields.guard (fun _ => h₃.1.congr rfl rfl rfl) fun _ => ?_
  have hdropped : Worded { m₃ with sp := m₃.sp - count } := h₃.1.congr rfl rfl rfl
  exact (hdropped.push h₁.2).bind fun _ _ h₄ => h₄.1.congr rfl rfl rfl

theorem execute (h : m.Worded) (hnext : IsWord (m.pc + 1)) (i : Instruction) :
    Retains Worded (execute i m) := by
  unfold Machine.execute
  cases i.operation with
  | push v => exact h.push_advance (isWord_wrap v)
  | load offset => exact h.load _
  | store offset => exact h.store _
  | loadGlobal slot => exact h.load _
  | storeGlobal slot => exact h.store _
  | pop => exact h.pop.bind fun _ _ h' => h'.1.congr rfl rfl rfl
  | compute op => exact h.compute op
  | negate => exact h.pop.bind fun v _ h' => h'.1.push_advance (isWord_wrap (-v))
  | jump target => exact h.jump target
  | jumpIfZero target => exact h.jumpIf (· = 0) target
  | jumpIfNonzero target => exact h.jumpIf (· ≠ 0) target
  | call target => exact h.call hnext target
  | giveBack count => exact h.giveBack count
  | enter locals => exact h.enter locals
  | leave => exact h.congr rfl rfl rfl
  | skip => exact h.congr rfl rfl rfl
  | halt => exact h.congr rfl rfl rfl
  | print => exact h.top.bind fun _ _ h' => h'.1.congr rfl rfl rfl
  | printText => exact h.printText
  | foreign x => exact h.congr rfl rfl rfl

/-- The address after an instruction of the program is a word. -/
theorem isWord_next (h : m.Worded) (hi : m.current? = some i) : IsWord (m.pc + 1) := by
  have hsize := h.program_le
  unfold current? at hi
  split at hi
  · rename_i hnonneg
    have hlt : m.pc.toNat < m.program.size := (Array.getElem?_eq_some_iff.mp hi).1
    rw [IsWord]
    rw [greatest] at hsize ⊢
    rw [least]
    omega
  · cases hi

theorem step (h : m.Worded) : Retains Worded (step m) := by
  cases hi : m.current? with
  | none =>
    obtain ⟨f, hstep⟩ := exists_step_eq_error hi
    rw [hstep]
    exact h.congr rfl rfl rfl
  | some i =>
    obtain ⟨steps, hstep⟩ := exists_step_eq_execute hi
    have hcounted : Worded { m with steps } := h.congr rfl rfl rfl
    rw [hstep]
    exact hcounted.execute (h.isWord_next hi) i

end Worded

/-! ## Runs -/

theorem worded_load {p : Program} (hsize : (p.size : Int) ≤ greatest)
    (hstack : m.options.stackSize ≤ greatest) :
    Retains Worded (loadProgram p m) := by
  have hzeros : ∀ v ∈ emptyStack m.options, IsWord v := by
    intro v hv
    rw [Array.eq_of_mem_replicate hv]
    decide
  have hempty : ((emptyStack m.options).size : Int) ≤ greatest := by
    rw [emptyStack, Array.size_replicate]
    rw [greatest] at hstack ⊢
    omega
  have hzero : IsWord 0 := by decide
  unfold loadProgram
  split
  · exact ⟨hzeros, hzero, hempty, hsize⟩
  · exact ⟨hzeros, hzero, hempty, hsize⟩

/-- Take a program of at most `2^31 - 1` instructions in, on a stack of at most `2^31 - 1` words,
and let the machine step on, whatever faults there are: the stack holds words only, and the base of
the frame is a word. -/
theorem stack_holds_words {p : Program} {m : Machine} (hsize : (p.size : Int) ≤ greatest)
    (hstack : m.options.stackSize ≤ greatest) (n : Nat) :
    (∀ v ∈ ((leave Machine.step)^[n] (leave (loadProgram p) m)).stack, IsWord v) ∧
      IsWord ((leave Machine.step)^[n] (leave (loadProgram p) m)).fp := by
  have hloaded := (worded_load hsize hstack).leave
  have hworded := iterate_leave_step (fun _ h => h.step) hloaded n
  exact ⟨hworded.words, hworded.fp⟩

/-- A function that returns to a frame below the stack, from where a word is pushed. -/
def straying : Program :=
  { code := #[⟨.call 3, none, none⟩, ⟨.leave, none, none⟩, ⟨.push 7, none, none⟩,
      ⟨.push (-3), none, none⟩, ⟨.store (-1), none, none⟩, ⟨.push 5, none, none⟩,
      ⟨.giveBack 0, none, none⟩] }

theorem stack_holds_words_straying :
    (straying.size : Int) ≤ greatest ∧
      ∃ m, m = (leave Machine.step)^[7]
          (leave (loadProgram straying) (initial { stackSize := 8 })) ∧
        m.sp = -2 ∧ m.fp = -3 ∧ m.stack = #[5, -3, 5, 0, 0, 7, 0, 0] ∧
        (∀ v ∈ m.stack, IsWord v) ∧ IsWord m.fp := by
  have hwords := stack_holds_words (p := straying) (m := initial { stackSize := 8 }) (by decide)
    (by decide) 7
  exact ⟨by decide, _, rfl, by decide, by decide, by decide, hwords⟩

end StackLang.Machine
