import StackLang.Proofs.Outcomes
import StackLang.Proofs.Registers
import StackLang.Proofs.Transparency

/-!
# The end of the run

A run of a disciplined program comes to its end by the return from the first call, which leaves the
value behind the global variables less those that pay for the arguments the first call owes.
-/

namespace StackLang

/-- The machine is at the end of the run. -/
def Machine.IsHalting (m : Machine) : Prop := ∃ i, m.current? = some i ∧ i.operation = .halt

instance (m : Machine) : Decidable m.IsHalting :=
  decidable_of_iff (m.current?.any (·.operation = .halt))
    (by simp only [Option.any_eq_true, decide_eq_true_eq, Machine.IsHalting])

/-- The end of the run stays where it is. -/
theorem Machine.IsHalting.step {m m₁ : Machine} (h : m.IsHalting)
    (hstep : Machine.step m = .ok () m₁) : m₁.IsHalting ∧ m₁.sp = m.sp ∧ m₁.fp = m.fp := by
  obtain ⟨i, hi, hhalt⟩ := h
  obtain ⟨steps, hexecute⟩ := exists_step_eq_execute hi
  rw [hexecute, execute, hhalt] at hstep
  cases hstep
  exact ⟨⟨i, hi, hhalt⟩, rfl, rfl⟩

namespace Discipline

open Machine

variable {At : Nat → Point → Prop} {g : Nat} {r : Region} {m m₁ : Machine} {ws : List Int}
  {p : Program} {n address : Nat}

/-! ## Frames and the calls that opened them -/

/-- A frame was opened by the call right before the address that it returns to. -/
def Frame.Opened (p : Program) (At : Nat → Point → Prop) (f : Frame) : Prop :=
  ∃ (i : Instruction) (address entry : Nat), f.returnTo = address + 1 ∧
    p.code[address]? = some i ∧ i.operation = .call entry ∧
    At entry (.entrance f.parameters f.locals)

/-- A machine in order whose frames were opened by calls. -/
structure Upright (At : Nat → Point → Prop) (g : Nat) (p : Program) (m : Machine) (ws : List Int)
    (fs : List Frame) : Prop extends InOrder At g m ws fs where
  program : m.program = p
  opened : ∀ f ∈ fs, f.Opened p At

theorem Turns.frames_eq {op : Operation} {fs fs' : List Frame} {ws' : List Int}
    (h : Turns At op m ws fs m₁ ws' fs') (hcall : ∀ target, op ≠ .call target)
    (hreturn : ∀ count, op ≠ .giveBack count) : fs' = fs := by
  unfold Turns at h
  split at h
  · exact absurd rfl (hcall _)
  · exact absurd rfl (hreturn _)
  · exact h

theorem Upright.step {fs : List Frame} (hp : Disciplined p g At) (h : Upright At g p m ws fs)
    (hstep : step m = .ok () m₁) :
    ∃ i ws₁ fs₁, m.current? = some i ∧ Advances At g i.operation m ws fs m₁ ws₁ fs₁ ∧
      Upright At g p m₁ ws₁ fs₁ := by
  obtain ⟨i, hi, hgoes⟩ := h.goes_step (h.program ▸ hp)
  obtain ⟨ws₁, fs₁, hadvances⟩ := hgoes.advances hstep
  refine ⟨i, ws₁, fs₁, hi, hadvances, hadvances.inOrder, hadvances.program.trans h.program, ?_⟩
  have hturns := hadvances.turns
  by_cases hcall : ∃ target, i.operation = .call target
  · obtain ⟨target, hop⟩ := hcall
    rw [hop] at hturns
    obtain ⟨-, f, rfl, -, hreturn, entry, rfl, hpoint⟩ := hturns
    obtain ⟨address, hpc, -⟩ := h.stands
    rw [current?_of_pc hpc, h.program] at hi
    have hnew : f.Opened p At := ⟨i, address, entry, by omega, hi, hop, hpoint⟩
    exact List.forall_mem_cons.mpr ⟨hnew, h.opened⟩
  by_cases hreturn : ∃ count, i.operation = .giveBack count
  · obtain ⟨count, hop⟩ := hreturn
    rw [hop] at hturns
    obtain ⟨f, rfl, -⟩ := hturns
    exact fun e he => h.opened e (List.mem_cons_of_mem _ he)
  · rw [not_exists] at hreturn hcall
    rw [hturns.frames_eq hcall hreturn]
    exact h.opened

/-! ## Where control can come to the end -/

/-- The pointers of a machine in order are in range. -/
theorem InOrder.bounded {fs : List Frame} (h : InOrder At g m ws fs) :
    m.Bounded ∧ InRange m.options.stackSize m := by
  have hsp := h.holds.sp
  have hfits := h.holds.fits
  have hfp : m.fp = base fs := h.fp
  have hbase : base fs ≤ ws.length := by
    cases fs with
    | nil => exact Nat.zero_le _
    | cons f fs => exact h.linked.base_le_length List.mem_cons_self
  exact ⟨⟨h.holds.size, by omega, by omega⟩, ⟨by omega, by omega, by omega, by omega⟩⟩

/-- Except for calls and returns, control stays in its region. -/
theorem Obeys.exists_within {op : Operation} {d : Int} (h : Obeys At g address (.within r d) op)
    (hpc : m.pc = address) (hleads : LeadsTo op m m₁) (hcall : ∀ target, op ≠ .call target)
    (hreturn : ∀ count, op ≠ .giveBack count) :
    ∃ (target : Nat) (d' : Int), m₁.pc = target ∧ At target (.within r d') := by
  have hnext (hleads : m₁.pc = m.pc + 1) {d' : Int} (next : At (address + 1) (.within r d')) :
      ∃ (target : Nat) (d' : Int), m₁.pc = target ∧ At target (.within r d') :=
    ⟨address + 1, d', by rw [hleads, hpc]; rfl, next⟩
  cases h with
  | jump goal => exact ⟨_, _, hleads, goal⟩
  | jumpIfZero enough goal next =>
    rcases hleads with hleads | hleads
    · exact ⟨_, _, hleads, goal⟩
    · exact hnext hleads next
  | call goal arguments next => exact absurd rfl (hcall _)
  | begin goal next => exact absurd rfl (hcall _)
  | missing negative => exact absurd rfl (hcall _)
  | giveBack enough => exact absurd rfl (hreturn _)
  | push v next => exact hnext hleads next
  | load known next => exact hnext hleads next
  | store known enough next => exact hnext hleads next
  | loadGlobal known next => exact hnext hleads next
  | storeGlobal known enough next => exact hnext hleads next
  | pop enough next => exact hnext hleads next
  | compute op enough next => exact hnext hleads next
  | negate enough next => exact hnext hleads next
  | print enough next => exact hnext hleads next

/-- There is no end of the run within a region. -/
theorem Disciplined.not_isHalting {d : Int} {target : Nat} (hp : Disciplined p g At)
    (hprogram : m.program = p) (hpc : m.pc = target) (hpoint : At target (.within r d)) :
    ¬m.IsHalting := by
  rintro ⟨i, hi, hhalt⟩
  obtain ⟨j, hj, hobeys⟩ := hp.obeys _ _ hpoint
  rw [current?_of_pc hpc, hprogram, hj, Option.some.injEq] at hi
  rw [hi, hhalt] at hobeys
  cases hobeys

/-- Outside all calls only a call or a return can lead to the end of the run. -/
theorem Upright.not_isHalting {i : Instruction} (hp : Disciplined p g At)
    (h : Upright At g p m ws []) (hi : m.current? = some i) (hleads : LeadsTo i.operation m m₁)
    (hprogram : m₁.program = p) (hcall : ∀ target, i.operation ≠ .call target)
    (hreturn : ∀ count, i.operation ≠ .giveBack count) (hbusy : ¬m.IsHalting) :
    ¬m₁.IsHalting := by
  obtain ⟨address, hpc, hstands⟩ := h.stands
  have hcode : p.code[address]? = some i := by
    rw [← h.program, ← current?_of_pc hpc, hi]
  cases hstands with
  | within point depth_nonneg length_eq =>
    obtain ⟨i', hi', hobeys⟩ := hp.obeys _ _ point
    obtain rfl := Option.some.inj (hcode.symm.trans hi')
    obtain ⟨target, d, hpc₁, hpoint⟩ := hobeys.exists_within hpc hleads hcall hreturn
    exact hp.not_isHalting hprogram hpc₁ hpoint
  | exit point hsome =>
    obtain ⟨i', hi', hobeys⟩ := hp.obeys _ _ point
    obtain rfl := Option.some.inj (hcode.symm.trans hi')
    generalize hop : i.operation = op at hobeys
    cases hobeys with
    | halt => exact absurd ⟨i, hi, hop⟩ hbusy

/-- The run comes to its end by the return from the first call. -/
theorem Upright.exists_return {fs : List Frame} (hp : Disciplined p g At)
    (h : Upright At g p m ws fs) (hstep : Machine.step m = .ok () m₁) (hhalting : m₁.IsHalting)
    (hbusy : ¬m.IsHalting) :
    ∃ f us v, fs = [f] ∧ f.Opened p At ∧ At f.returnTo .exit ∧ f.parameters ≤ g ∧
      ws = us ++ [v] ∧ g ≤ us.length ∧ m₁.Holds (us.take (g - f.parameters) ++ [v]) := by
  obtain ⟨i, ws₁, fs₁, hi, hadvances, hupright⟩ := h.step hp hstep
  obtain ⟨j, hj, hhalt⟩ := hhalting
  obtain rfl : fs₁ = [] := by
    have hp₁ := hp
    rw [← hupright.program] at hp₁
    exact hupright.frames_eq_nil hp₁ hj hhalt
  obtain ⟨hbounded, hrange⟩ := h.bounded
  have hsteered := hbounded.steered_step hrange hi
  rw [hstep] at hsteered
  have hleads := hsteered.2
  have hturns := hadvances.turns
  by_cases hreturn : ∃ count, i.operation = .giveBack count
  · obtain ⟨count, hop⟩ := hreturn
    rw [hop] at hturns hleads
    obtain ⟨f, rfl, rfl, hpc, us, v, rfl, hbase, rfl⟩ := hturns
    cases h.linked with
    | call rest next depth_nonneg base_eq returnTo caller =>
      exact absurd ⟨j, hj, hhalt⟩ (hp.not_isHalting hupright.program hpc next)
    | begin next base_eq returnTo caller =>
      obtain ⟨-, -, hpositive, hsp⟩ := hleads
      have hfp : m.fp = f.base := h.fp
      refine ⟨f, us, v, rfl, h.opened f List.mem_cons_self, next, by omega, rfl, by omega, ?_⟩
      have hbottom : f.bottom = g - f.parameters := by
        rw [Frame.bottom, base_eq]
        omega
      rw [← hbottom]
      exact hupright.holds
  · exfalso
    by_cases hcall : ∃ target, i.operation = .call target
    · obtain ⟨target, hop⟩ := hcall
      rw [hop] at hturns
      obtain ⟨-, f, hframes, -⟩ := hturns
      cases hframes
    · rw [not_exists] at hreturn hcall
      obtain rfl := hturns.frames_eq hcall hreturn
      exact h.not_isHalting hp hi hleads hupright.program hcall hreturn hbusy ⟨j, hj, hhalt⟩

/-! ## Runs -/

/-- What holds of a program that has been taken in and is kept by all steps that succeed. -/
theorem trial_induction {I : Machine → Prop} {m' : Machine}
    (hload : ∀ m₀, loadProgram p m = .ok () m₀ → I m₀)
    (hstep : ∀ m₁ m₂, I m₁ → Machine.step m₁ = .ok () m₂ → I m₂)
    (h : trial p n m = .ok () m') : I m' := by
  induction n generalizing m' with
  | zero =>
    cases hm : loadProgram p m with
    | error e m₀ =>
      rw [trial_of_load_error hm] at h
      cases h
    | ok u m₀ =>
      rw [trial_of_load_ok hm] at h
      cases h
      exact hload _ hm
  | succ n ih =>
    cases hn : trial p n m with
    | error e m₁ =>
      rw [trial_add_of_error hn] at h
      cases h
    | ok u m₁ =>
      rw [trial_add_of_ok hn] at h
      cases hm : Machine.step m₁ with
      | error e m₂ =>
        rw [stepMany_succ_of_error hm] at h
        cases h
      | ok u m₂ =>
        rw [stepMany_succ_of_ok hm] at h
        cases h
        exact hstep _ _ (ih hn) hm

/-- A program that is taken in has no frames, and does not end before its first instruction. -/
theorem Disciplined.upright_load (hp : Disciplined p g At)
    (hload : loadProgram p m = .ok () m₁) :
    Upright At g p m₁ (List.replicate g 0) [] ∧ ¬m₁.IsHalting := by
  rcases hp.goes_load m with ⟨f, m', hm'⟩ | ⟨m', hm', horder, -, hprogram, -⟩
  · rw [hload] at hm'
    cases hm'
  · rw [hload] at hm'
    cases hm'
    refine ⟨⟨horder, hprogram, fun _ hf => nomatch hf⟩, ?_⟩
    have hpc : m₁.pc = (0 : Nat) := by
      unfold loadProgram at hload
      split at hload
      · cases hload
      · cases hload
        rfl
    exact hp.not_isHalting hprogram hpc hp.start

theorem Disciplined.upright_trial (hp : Disciplined p g At)
    (htrial : trial p n m = .ok () m₁) : ∃ ws fs, Upright At g p m₁ ws fs := by
  refine trial_induction (I := fun m => ∃ ws fs, Upright At g p m ws fs)
    (fun m₀ hload => ⟨_, _, (hp.upright_load hload).1⟩) (fun m₁ m₂ ⟨ws, fs, h⟩ hstep => ?_) htrial
  obtain ⟨-, ws', fs', -, -, hupright⟩ := h.step hp hstep
  exact ⟨ws', fs', hupright⟩

/-- At the end of a run there are no frames, and as many global variables are lost as the first call
owed arguments. -/
theorem Disciplined.sp_of_isHalting {q : Nat} (hp : Disciplined p g At)
    (hq : ∀ f : Frame, f.Opened p At → At f.returnTo .exit → f.parameters = q)
    (htrial : trial p n m = .ok () m₁) (hhalting : m₁.IsHalting) :
    m₁.fp = 0 ∧ m₁.sp + q = g + 1 := by
  refine (trial_induction (I := fun m => (∃ ws fs, Upright At g p m ws fs) ∧
      (m.IsHalting → m.fp = 0 ∧ m.sp + q = g + 1)) (fun m₀ hload => ?_)
    (fun m₁ m₂ ⟨⟨ws, fs, h⟩, hends⟩ hstep => ?_) htrial).2 hhalting
  · obtain ⟨hupright, hbusy⟩ := hp.upright_load hload
    exact ⟨⟨_, _, hupright⟩, fun hhalting => absurd hhalting hbusy⟩
  · obtain ⟨i, ws', fs', -, -, hupright⟩ := h.step hp hstep
    refine ⟨⟨ws', fs', hupright⟩, fun hhalting => ?_⟩
    by_cases hbefore : m₁.IsHalting
    · obtain ⟨-, hsp, hfp⟩ := hbefore.step hstep
      rw [hsp, hfp]
      exact hends hbefore
    · obtain ⟨f, us, v, -, hopened, hexit, hle, -, hlength, hholds⟩ :=
        h.exists_return hp hstep hhalting hbefore
      obtain ⟨j, hj, hhalt⟩ := hhalting
      have hp₂ := hp
      rw [← hupright.program] at hp₂
      obtain rfl := hupright.frames_eq_nil hp₂ hj hhalt
      refine ⟨hupright.fp, ?_⟩
      have hsp := hholds.sp
      rw [List.length_append, List.length_singleton, List.length_take_of_le (by omega)] at hsp
      rw [hq f hopened hexit] at hsp hle
      omega

end Discipline

end StackLang
