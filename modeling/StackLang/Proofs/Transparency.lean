import StackLang.Proofs.CallSites
import StackLang.Proofs.Discipline.Code
import StackLang.Proofs.Discipline.Step
import StackLang.Proofs.Preservation

/-!
# Calls are transparent to the caller

The return that matches a call is the first one after it at which as many calls have been returned
from as have been made. Whatever happens in between, the caller then finds its registers and its
words as they were, with the value in the place of the arguments.
-/

namespace StackLang

/-! ## Matching returns -/

/-- How an operation changes the number of open calls. -/
def Operation.opens : Operation → Int
  | .call _ => 1
  | .giveBack _ => -1
  | _ => 0

namespace Machine

/-- How many more calls than returns a machine executes in its next steps, up to a step that does
not succeed. -/
def openCalls : Nat → Machine → Int
  | 0, _ => 0
  | n + 1, m =>
    match m.current?, step m with
    | some i, .ok () m' => i.operation.opens + openCalls n m'
    | _, _ => 0

theorem openCalls_succ {m m' : Machine} {i : Instruction} (hi : m.current? = some i)
    (hstep : step m = .ok () m') (n : Nat) :
    openCalls (n + 1) m = i.operation.opens + openCalls n m' := by
  rw [openCalls, hi, hstep]

/-- A machine that is about to make a call returns from it: after `n` steps it is about to execute
the matching return. -/
structure Returns (m : Machine) (n : Nat) (before after : Machine) : Prop where
  comes : stepMany n m = .ok () before
  leaves : step before = .ok () after
  pending : ∀ k, 0 < k → k ≤ n → 0 < openCalls k m
  closed : openCalls (n + 1) m = 0

/-- Whether a machine returns from a call after some steps can be found out by taking them. -/
instance decidableReturns (m : Machine) (n : Nat) :
    Decidable (∃ before after, m.Returns n before after) :=
  decidable_of_iff ((match stepMany (n + 1) m with
      | .ok _ _ => true
      | .error _ _ => false) = true ∧
      (∀ k < n, 0 < openCalls (k + 1) m) ∧ openCalls (n + 1) m = 0) <| by
    constructor
    · rintro ⟨hok, hpending, hclosed⟩
      have hpending' (k : Nat) (hk : 0 < k) (hle : k ≤ n) : 0 < openCalls k m := by
        obtain ⟨j, rfl⟩ : ∃ j, k = j + 1 := ⟨k - 1, by omega⟩
        exact hpending j (by omega)
      cases hcomes : stepMany n m with
      | error e before => simp [stepMany_add_of_error hcomes] at hok
      | ok u before =>
        rw [stepMany_add_of_ok hcomes] at hok
        cases hleaves : step before with
        | error e after => simp [stepMany_succ_of_error hleaves] at hok
        | ok u after => exact ⟨before, after, hcomes, hleaves, hpending', hclosed⟩
    · rintro ⟨before, after, hcomes, hleaves, hpending, hclosed⟩
      refine ⟨?_, fun k hk => hpending (k + 1) (Nat.succ_pos k) hk, hclosed⟩
      rw [stepMany_add_of_ok hcomes, stepMany_succ_of_ok hleaves]
      rfl

end Machine

/-! ## Runs inside a call -/

namespace Discipline

open Machine

variable {At : Nat → Point → Prop} {g : Nat} {m before after : Machine} {ws : List Int}
  {f : Frame} {fs gs : List Frame}

/-- What the return from a frame leaves, compared with the words before. -/
structure Left (At : Nat → Point → Prop) (g : Nat) (ws : List Int) (f : Frame) (fs : List Frame)
    (before after : Machine) (us : List Int) (v : Int) : Prop where
  holds : before.Holds (us ++ [v])
  fp : before.fp = f.base
  base_le : f.base ≤ us.length
  inOrder : InOrder At g after (us.take f.bottom ++ [v]) fs
  pc : after.pc = f.returnTo
  kept : ∀ k, g ≤ k → k < f.bottom → (us.take f.bottom ++ [v])[k]? = ws[k]?

/-- A step that succeeds leads on. -/
theorem Goes.advances {op : Operation} {m' : Machine}
    (h : Goes At g op m ws fs (step m)) (hstep : step m = .ok () m') :
    ∃ ws' fs', Advances At g op m ws fs m' ws' fs' := by
  rcases h with ⟨e, m₁, hm₁⟩ | ⟨m₁, ws', fs', hm₁, hadvances⟩
  · rw [hstep] at hm₁
    cases hm₁
  · rw [hstep] at hm₁
    cases hm₁
    exact ⟨ws', fs', hadvances⟩

/-- A step opens a frame above a given one, closes one above it, leaves the frames, or closes the
given one. -/
theorem Advances.frames {op : Operation} {m' : Machine} {ws' : List Int} {fs' : List Frame}
    (h : InOrder At g m ws (gs ++ f :: fs))
    (hadvances : Advances At g op m ws (gs ++ f :: fs) m' ws' fs') :
    (∃ gs', fs' = gs' ++ f :: fs ∧ (gs'.length : Int) = gs.length + op.opens) ∨
      (gs = [] ∧ op = .giveBack f.parameters ∧ ∃ us v, Left At g ws f fs m m' us v) := by
  have hturns := hadvances.turns
  cases op with
  | call target =>
    obtain ⟨-, e, rfl, -⟩ := hturns
    exact .inl ⟨e :: gs, rfl, rfl⟩
  | giveBack count =>
    obtain ⟨e, hframes, rfl, hpc, us, v, rfl, hbase, rfl⟩ := hturns
    cases gs with
    | nil =>
      obtain ⟨rfl, rfl⟩ := List.cons.inj hframes
      exact .inr ⟨rfl, rfl, us, v, h.holds, h.fp, hbase, hadvances.inOrder, hpc,
        hadvances.kept⟩
    | cons e' gs =>
      obtain ⟨-, rfl⟩ := List.cons.inj hframes
      refine .inl ⟨gs, rfl, ?_⟩
      simp only [List.length_cons, Operation.opens]
      omega
  | _ => exact .inl ⟨gs, hturns, (Int.add_zero _).symm⟩

/-- While a frame is open, the steps of a machine do not touch what is below its arguments. -/
theorem InOrder.exists_left {n : Nat} (hp : Disciplined m.program g At)
    (h : InOrder At g m ws (gs ++ f :: fs)) (hcomes : stepMany n m = .ok () before)
    (hleaves : step before = .ok () after)
    (hpending : ∀ k ≤ n, 0 < (gs.length : Int) + 1 + openCalls k m)
    (hclosed : (gs.length : Int) + 1 + openCalls (n + 1) m = 0) :
    (∃ i, before.current? = some i ∧ i.operation = .giveBack f.parameters) ∧
      ∃ us v, Left At g ws f fs before after us v := by
  -- the open calls are counted by the frames above the given one
  induction n generalizing m ws gs with
  | zero =>
    obtain rfl : m = before := by simpa [stepMany, pure, EStateM.pure] using hcomes
    obtain ⟨i, hi, hgoes⟩ := h.goes_step hp
    obtain ⟨ws', fs', hadvances⟩ := hgoes.advances hleaves
    rw [openCalls_succ hi hleaves, openCalls] at hclosed
    rcases hadvances.frames h with ⟨gs', -, hlength⟩ | ⟨-, hoperation, hleft⟩
    · omega
    · exact ⟨⟨i, hi, hoperation⟩, hleft⟩
  | succ n ih =>
    cases hstep : step m with
    | error e m₁ =>
      rw [stepMany_succ_of_error hstep] at hcomes
      cases hcomes
    | ok u m₁ =>
      obtain ⟨i, hi, hgoes⟩ := h.goes_step hp
      obtain ⟨ws₁, fs₁, hadvances⟩ := hgoes.advances hstep
      have hcount (k : Nat) : openCalls (k + 1) m = i.operation.opens + openCalls k m₁ :=
        openCalls_succ hi hstep k
      have hbottom := h.linked.bottom_le
      rcases hadvances.frames h with ⟨gs₁, rfl, hlength⟩ | ⟨rfl, hoperation, -⟩
      · rw [stepMany_succ_of_ok hstep] at hcomes
        rw [← hadvances.program] at hp
        obtain ⟨hreturn, us, v, hleft⟩ := ih hp hadvances.inOrder hcomes
          (fun k hk => by
            have hpositive := hpending (k + 1) (Nat.succ_le_succ hk)
            rw [hcount] at hpositive
            omega)
          (by rw [hcount] at hclosed; omega)
        refine ⟨hreturn, us, v, hleft.holds, hleft.fp, hleft.base_le, hleft.inOrder, hleft.pc, ?_⟩
        intro k hg hk
        rw [hleft.kept k hg hk, hadvances.kept k hg (by omega)]
      · have hpositive := hpending 1 (Nat.succ_le_succ (Nat.zero_le n))
        rw [hcount 0, openCalls, hoperation, Operation.opens, List.length_nil] at hpositive
        exact absurd hpositive (by decide)

/-- What is true of the frame that a call opens and of the return that closes it. -/
theorem InOrder.exists_call_left {k : Nat} {i : Instruction} {target : Int}
    (hp : Disciplined m.program g At) (h : InOrder At g m ws fs) (hi : m.current? = some i)
    (hoperation : i.operation = .call target) (hreturns : m.Returns k before after) :
    ∃ f ws₁ us v, f.base = ws.length + 2 ∧ m.pc + 1 = f.returnTo ∧ ws <+: ws₁ ∧
      Linked At g ws₁ (f :: fs) ∧
      (∃ entry : Nat, target = entry ∧ At entry (.entrance f.parameters f.locals)) ∧
      (∃ i, before.current? = some i ∧ i.operation = .giveBack f.parameters) ∧
      Left At g ws₁ f fs before after us v := by
  obtain ⟨hcomes, hleaves, hpending, hclosed⟩ := hreturns
  have hcount {m₁ : Machine} (hstep : step m = .ok () m₁) (j : Nat) :
      openCalls (j + 1) m = 1 + openCalls j m₁ := by
    rw [openCalls_succ hi hstep, hoperation]
    rfl
  cases k with
  | zero =>
    obtain rfl : m = before := by simpa [stepMany, pure, EStateM.pure] using hcomes
    rw [hcount hleaves, openCalls] at hclosed
    omega
  | succ k =>
    cases hstep : step m with
    | error e m₁ =>
      rw [stepMany_succ_of_error hstep] at hcomes
      cases hcomes
    | ok u m₁ =>
      obtain ⟨i', hi', hgoes⟩ := h.goes_step hp
      obtain rfl : i = i' := Option.some.inj (hi.symm.trans hi')
      obtain ⟨ws₁, fs₁, hadvances⟩ := hgoes.advances hstep
      have hturns := hadvances.turns
      rw [hoperation] at hturns
      obtain ⟨hstart, f, rfl, hbase, hreturn, hentry⟩ := hturns
      rw [stepMany_succ_of_ok hstep] at hcomes
      rw [← hadvances.program] at hp
      have horder : InOrder At g m₁ ws₁ ([] ++ f :: fs) := hadvances.inOrder
      obtain ⟨hlast, us, v, hleft⟩ := horder.exists_left hp hcomes hleaves
        (fun j hj => by
          have hpositive := hpending (j + 1) (Nat.succ_pos j) (Nat.succ_le_succ hj)
          rw [hcount hstep] at hpositive
          rw [List.length_nil]
          omega)
        (by
          rw [hcount hstep] at hclosed
          rw [List.length_nil]
          omega)
      exact ⟨f, ws₁, us, v, hbase, hreturn, hstart, horder.linked, hentry, hlast, hleft⟩

/-- A call that is not the first one passes the arguments that the function takes. -/
theorem Linked.parameters_le {n : Nat} (h : Linked At g ws (f :: fs)) (hbase : f.base = n + 2)
    (hexit : ¬At f.returnTo .exit) : f.parameters ≤ n := by
  cases h with
  | call rest next depth_nonneg base_eq returnTo caller => omega
  | begin next base_eq returnTo caller => exact absurd next hexit

/-! ## Points of calls -/

open Simulation (Clean arityAt)

variable {tree : Tree} {statements : List Tree} {parts : List Tree.Parts} {s : Script}

theorem PointOf.arityAt_eq {entry parameters locals : Nat}
    (hpoint : PointOf parts s entry (.entrance parameters locals))
    (h : Clean tree statements parts s) (comments : Bool) :
    arityAt tree (s.program comments) entry = parameters := by
  cases hpoint with
  | entrance hf haddress =>
    obtain ⟨entry', hlookup, harity, -⟩ := h.exists_entry comments hf
    obtain rfl : entry = entry' := Option.some.inj (haddress.symm.trans hlookup)
    exact harity

theorem PointOf.address_eq {address : Nat} (hpoint : PointOf parts s address .exit) :
    address = Simulation.haltAddress s := by
  cases hpoint with
  | exit => rfl

end Discipline

open Simulation (Clean arityAt)

/-- At a call site there is a call of the function whose parameters the arguments are for, and it is
not the first call. -/
theorem Script.exists_call {tree : Tree} {statements : List Tree} {parts : List Tree.Parts}
    {s : Script} (h : Clean tree statements parts s) (comments : Bool) {c : CallSite}
    (hc : c ∈ s.callSites) :
    ∃ (i : Instruction) (entry : Nat), (s.program comments).code[c.address]? = some i ∧
      i.operation = .call entry ∧ s.entries.lookup c.callee = some entry ∧
      arityAt tree (s.program comments) entry = c.arguments ∧
      c.address + 1 ≠ Simulation.haltAddress s := by
  obtain ⟨⟨⟨k, d, haddress, hd, haction⟩, f, hf, hcount⟩, hfirst⟩ :=
    Script.inCode_of_mem_callSites h hc
  rw [h.find?_signatures h.nodup_names] at hf
  obtain ⟨g, hg, rfl⟩ := Option.map_eq_some_iff.mp hf
  have hname : g.name = c.callee := by simpa using List.find?_some hg
  obtain ⟨entry, hlookup, harity, -⟩ := h.exists_entry comments (List.mem_of_find?_eq_some hg)
  rw [hname] at hlookup
  obtain ⟨i, hi, hoperation⟩ := s.program_has comments k d hd
  rw [← haddress] at hi
  rw [haction, Draft.Action.operation, hlookup] at hoperation
  refine ⟨i, entry, hi, hoperation, hlookup, ?_, ?_⟩
  · rw [harity, hcount, Tree.Parts.length_parameters]
    rfl
  · rw [Simulation.haltAddress]
    omega

/-- After a call the caller goes on with its registers, with the value in the place of the
arguments, and with the words between the global variables and the arguments as they were. -/
structure Resumes (globals : Int) (arguments : Nat) (m before after : Machine) : Prop where
  pc : after.pc = m.pc + 1
  fp : after.fp = m.fp
  sp : after.sp = m.sp - arguments + 1
  value : ∃ v, before.word? (before.sp - 1) = some v ∧ after.word? (after.sp - 1) = some v
  words : ∀ k : Nat, globals ≤ k → k < m.sp - arguments →
    (m.word? k).isSome ∧ after.word? k = m.word? k

/-- What is left by the return from a frame that a call has just opened. -/
theorem Discipline.Left.resumes {At : Nat → Discipline.Point → Prop} {g : Nat}
    {ws ws₁ us : List Int} {f : Discipline.Frame} {fs : List Discipline.Frame}
    {m before after : Machine} {v : Int}
    (h : Discipline.Left At g ws₁ f fs before after us v) (horder : Discipline.InOrder At g m ws fs)
    (hbase : f.base = ws.length + 2) (hreturn : m.pc + 1 = f.returnTo) (hstart : ws <+: ws₁)
    (hcount : f.parameters ≤ ws.length) : Resumes g f.parameters m before after := by
  have hbottom : f.bottom = ws.length - f.parameters := by
    rw [Discipline.Frame.bottom]
    omega
  have htake : (us.take f.bottom).length = f.bottom := by
    have hle := h.base_le
    exact List.length_take_of_le (by omega)
  have hbefore := h.holds.sp
  have hafter := h.inOrder.holds.sp
  simp only [List.length_append, List.length_singleton, htake] at hbefore hafter
  have hsp := horder.holds.sp
  refine ⟨h.pc.trans hreturn.symm, h.inOrder.fp.trans horder.fp.symm, by omega, ⟨v, ?_, ?_⟩, ?_⟩
  · rw [hbefore, show ((us.length + 1 : Nat) : Int) - 1 = us.length by omega,
      h.holds.word? (by simp), List.getElem?_concat_length]
  · have hlast : (after.sp - 1 : Int) = ((us.take f.bottom).length : Nat) := by omega
    rw [hlast, h.inOrder.holds.word? (by simp), List.getElem?_concat_length]
  · intro k hg hk
    have hlt : k < ws.length := by omega
    have hsame : ws₁[k]? = ws[k]? := by
      obtain ⟨rest, rfl⟩ := hstart
      exact List.getElem?_append_left hlt
    rw [horder.holds.word? hlt, h.inOrder.holds.word? (by simp [htake]; omega),
      h.kept k (by omega) (by omega), hsame]
    exact ⟨by simp [hlt], rfl⟩

/-- Calls are transparent to the caller. Whenever a machine of any stack size has come to a call
of the source of an accepted program and later to the matching return, that return closes the frame
of this very call, and the caller goes on as if the call had only replaced its arguments by the
value. -/
theorem calls_transparent {options : CompileOptions} {file source : String} {tree : Tree}
    {compiled : Compiled} (h : Accepted options file source tree compiled) {s : Script}
    (hs : Script.ofTree? tree = some s) {c : CallSite} (hc : c ∈ s.callSites)
    {m m₀ before after : Machine} {n k : Nat}
    (hreached : Machine.trial compiled.program n m = .ok () m₀) (hpc : m₀.pc = c.address)
    (hreturns : m₀.Returns k before after) :
    (∃ (i : Instruction) (entry : Nat), m₀.current? = some i ∧ i.operation = .call entry ∧
      compiled.program.functions.lookup c.callee = some entry) ∧
    (∃ i : Instruction, before.current? = some i ∧ i.operation = .giveBack c.arguments) ∧
    before.fp = m₀.sp + 2 ∧
    Resumes compiled.program.globals c.arguments m₀ before after := by
  obtain ⟨statements, parts, s', hclean, hprogram⟩ := h.exists_clean
  obtain rfl : s = s' := Option.some.inj (hs.symm.trans hclean.script)
  rw [hprogram] at hreached ⊢
  have hdisciplined := Discipline.disciplined_program hclean options.comments
  obtain ⟨ws, fs, horder, hprogram₀⟩ : ∃ ws fs, Discipline.InOrder (Discipline.PointOf parts s)
      s.functionScope.globals.length m₀ ws fs ∧ m₀.program = s.program options.comments := by
    rcases hdisciplined.goes_trial m n with ⟨f, m', hm'⟩ | ⟨m', ws, fs, hm', horder, -, hprogram'⟩
    · rw [hreached] at hm'
      cases hm'
    · rw [hreached] at hm'
      cases hm'
      exact ⟨ws, fs, horder, hprogram'⟩
  obtain ⟨i, entry, hi, hoperation, hlookup, harity, hfirst⟩ :=
    Script.exists_call hclean options.comments hc
  have hcurrent : m₀.current? = some i := by
    rw [Machine.current?_of_pc hpc, hprogram₀, hi]
  rw [← hprogram₀] at hdisciplined
  obtain ⟨f, ws₁, us, v, hbase, hreturn, hstart, hlinked, ⟨entry', hentry, hpoint⟩, hlast, hleft⟩ :=
    horder.exists_call_left hdisciplined hcurrent hoperation hreturns
  obtain rfl : entry = entry' := by omega
  have harguments : c.arguments = f.parameters :=
    harity.symm.trans (hpoint.arityAt_eq hclean options.comments)
  have hexit : ¬Discipline.PointOf parts s f.returnTo .exit := by
    intro hpoint
    have haddress := hpoint.address_eq
    omega
  have hcount := hlinked.parameters_le hbase hexit
  rw [harguments]
  refine ⟨⟨i, entry, hcurrent, hoperation, hlookup⟩, hlast, ?_,
    hleft.resumes horder hbase hreturn hstart hcount⟩
  rw [hleft.fp, hbase, horder.holds.sp]
  rfl

/-- In the middle of the countdown a function calls itself and is returned to. -/
theorem calls_transparent_countdown :
    ∃ tree compiled s m₀ before after, Accepted {} "countdown" countdown tree compiled ∧
      Script.ofTree? tree = some s ∧ ⟨19, "f", 1⟩ ∈ s.callSites ∧
      Machine.trial compiled.program 18 (Machine.initial { stackSize := 24 }) = .ok () m₀ ∧
      m₀.pc = 19 ∧ m₀.Returns 35 before after ∧
      Resumes compiled.program.globals 1 m₀ before after := by
  obtain ⟨tree, compiled, g, haccepted, -⟩ := accepted_countdown
  obtain ⟨statements, parts, s, hclean, hprogram⟩ := haccepted.exists_clean
  have hrun : ((Source.tree "countdown" countdown).toOption.bind Script.ofTree?).map (fun s =>
      decide (⟨19, "f", 1⟩ ∈ s.callSites) &&
        match Machine.trial (s.program true) 18 (Machine.initial { stackSize := 24 }) with
        | .ok _ m₀ => decide (m₀.pc = 19) && decide (∃ before after, m₀.Returns 35 before after)
        | .error _ _ => false) = some true := by
    decide +kernel
  rw [haccepted.parsed, Except.toOption, Option.bind_some, hclean.script, Option.map_some,
    Option.some.injEq, Bool.and_eq_true, decide_eq_true_eq] at hrun
  obtain ⟨hsite, hrun⟩ := hrun
  split at hrun
  · rename_i m₀ htrial
    rw [Bool.and_eq_true, decide_eq_true_eq, decide_eq_true_eq] at hrun
    obtain ⟨hpc, before, after, hreturns⟩ := hrun
    have hreached : Machine.trial compiled.program 18 (Machine.initial { stackSize := 24 }) =
        .ok () m₀ := by
      rw [hprogram]
      exact htrial
    exact ⟨tree, compiled, s, m₀, before, after, haccepted, hclean.script, hsite, hreached, hpc,
      hreturns, (calls_transparent haccepted hclean.script hsite hreached hpc hreturns).2.2.2⟩
  · cases hrun

end StackLang
