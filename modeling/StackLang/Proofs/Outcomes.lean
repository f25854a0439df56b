import StackLang.Proofs.Discipline.Code
import StackLang.Proofs.Discipline.Step
import StackLang.Proofs.Legible
import StackLang.Proofs.Preservation

/-!
# What can become of a source text

A source text without overlong numbers is refused for a reason or it gets a program, and with its
program every machine comes to a word, faults, or goes on forever. There is nothing else: compiling
does not break down, and no machine reaches beyond its stack, not even with a program that has no
first function or one that is called without the arguments it takes.
-/

namespace StackLang

open Machine

/-! ## Runs of disciplined programs -/

namespace Discipline

variable {At : Nat → Point → Prop} {g : Nat} {m m' : Machine} {ws : List Int} {fs : List Frame}
  {i : Instruction} {p : Program} {n : Nat}

theorem stepMany_one : stepMany 1 = step := by
  simp [stepMany]

/-- A machine halts outside all frames. -/
theorem InOrder.frames_eq_nil (hp : Disciplined m.program g At) (h : InOrder At g m ws fs)
    (hi : m.current? = some i) (hhalt : i.operation = .halt) : fs = [] := by
  obtain ⟨address, hpc, hstands⟩ := h.stands
  have hexit (point : Point) (hpoint : At address point) : point = .exit := by
    obtain ⟨j, hj, hobeys⟩ := hp.obeys address point hpoint
    have hij : some i = some j := hi.symm.trans ((current?_of_pc hpc).trans hj)
    rw [← Option.some.inj hij, hhalt] at hobeys
    cases hobeys with
    | halt => rfl
  cases hstands with
  | within point => cases hexit _ point
  | entrance point => cases hexit _ point
  | exit point => rfl

/-- Outside all frames the result is a word. -/
theorem Framed.exists_result (h : Framed At g m ws []) :
    ∃ v, m.result? = some v ∧ Word.IsWord v := by
  rcases List.eq_nil_or_concat ws with rfl | ⟨us, v, hws⟩
  · have hsp : m.sp = 0 := h.holds.sp
    exact ⟨0, by rw [result?, if_neg (by omega)], by decide⟩
  · rw [List.concat_eq_append] at hws
    have htop : ws[us.length]? = some v := by simp [hws]
    have hsp : m.sp = (us.length : Int) + 1 := by simp [h.holds.sp, hws]
    have hword := h.holds.word? (k := us.length) (by simp [hws])
    refine ⟨v, ?_, h.data us.length v htop (by simp)⟩
    rw [result?, if_pos (by omega), hsp, Int.add_sub_cancel, hword, htop]

theorem InOrder.isActive (hp : Disciplined m.program g At) (h : InOrder At g m ws fs)
    (hrunning : m.running = true) : m.isActive = true := by
  obtain ⟨i, hi, -⟩ := h.goes_step hp
  obtain ⟨address, hpc, -⟩ := h.stands
  rw [current?_of_pc hpc] at hi
  have hlt : m.pc < m.program.size := by
    rw [hpc]
    exact Int.ofNat_lt.mpr (Array.getElem?_eq_some_iff.mp hi).1
  simp [Machine.isActive, hrunning, hlt]

/-- A machine has come to its end: it has faulted, or it has halted outside all frames. -/
def Ends (At : Nat → Point → Prop) (g : Nat) : EStateM.Result Stop Machine Unit → Prop
  | .error e _ => ∃ f, e = .fault f
  | .ok _ m' => m'.running = false ∧ ∃ ws, Framed At g m' ws []

/-- A machine is on its way. -/
def Lasts (At : Nat → Point → Prop) (g : Nat) (p : Program) :
    EStateM.Result Stop Machine Unit → Prop
  | .error _ _ => False
  | .ok _ m' => m'.running = true ∧ m'.program = p ∧ ∃ ws fs, InOrder At g m' ws fs

/-- One more step of a machine on its way. -/
theorem Disciplined.ends_or_lasts_step (hp : Disciplined p g At)
    (hlasts : Lasts At g p (.ok () m)) : Ends At g (step m) ∨ Lasts At g p (step m) := by
  obtain ⟨hrunning, rfl, ws, fs, horder⟩ := hlasts
  obtain ⟨i, hi, ⟨f, m', hm'⟩ | ⟨m', ws', fs', hm', hadvances⟩⟩ := horder.goes_step hp
  · rw [hm']
    exact .inl ⟨f, rfl⟩
  rw [hm']
  have hrunning' := hadvances.running
  by_cases hhalt : i.operation = .halt
  · have hturns := hadvances.turns
    rw [if_pos hhalt] at hrunning'
    rw [hhalt] at hturns
    obtain rfl : fs = [] := horder.frames_eq_nil hp hi hhalt
    obtain rfl : fs' = [] := hturns
    exact .inl ⟨hrunning', ws', hadvances.inOrder.toFramed⟩
  · rw [if_neg hhalt, hrunning] at hrunning'
    exact .inr ⟨hrunning', hadvances.program, ws', fs', hadvances.inOrder⟩

/-- After any number of steps a machine has come to its end in the meantime, or it is on its way. -/
theorem Disciplined.ends_or_lasts (hp : Disciplined p g At) (m : Machine) (n : Nat) :
    (∃ k, Busy p m k ∧ Ends At g (trial p k m)) ∨ Busy p m n ∧ Lasts At g p (trial p n m) := by
  -- once a machine has ended, the steps after its end do not matter
  induction n with
  | zero =>
    have hbusy : Busy p m 0 := fun k hk => absurd hk (Nat.not_lt_zero k)
    rcases hp.goes_load m with ⟨f, m₁, hm₁⟩ | ⟨m₁, hm₁, horder, -, hprogram, hrunning⟩
    · exact .inl ⟨0, hbusy, by rw [trial_of_load_error hm₁]; exact ⟨f, rfl⟩⟩
    · refine .inr ⟨hbusy, ?_⟩
      rw [trial_of_load_ok hm₁]
      exact ⟨hrunning, hprogram, _, _, horder⟩
  | succ n ih =>
    rcases ih with hended | ⟨hbusy, hlasts⟩
    · exact .inl hended
    cases htrial : trial p n m with
    | error e m₁ =>
      rw [htrial] at hlasts
      exact hlasts.elim
    | ok u m₁ =>
      rw [htrial] at hlasts
      have hnext : trial p (n + 1) m = step m₁ := by
        rw [trial_add_of_ok htrial, stepMany_one]
      have hbusy' : Busy p m (n + 1) := by
        intro k hk m₂ hm₂
        rcases Nat.lt_succ_iff_lt_or_eq.mp hk with hk | rfl
        · exact hbusy k hk m₂ hm₂
        · obtain ⟨hrunning, rfl, ws, fs, horder⟩ := hlasts
          rw [htrial] at hm₂
          cases hm₂
          exact horder.isActive hp hrunning
      rw [hnext]
      rcases hp.ends_or_lasts_step hlasts with hends | hlasts'
      · exact .inl ⟨n + 1, hbusy', by rwa [hnext]⟩
      · exact .inr ⟨hbusy', hlasts'⟩

end Discipline

/-! ## Outcomes -/

/-- What a machine comes to with a program: a word, a fault, or nothing. -/
inductive Machine.Outcome (m : Machine) (p : Program) : Prop
  | result (v : Int) (lines : List String) (hword : Word.IsWord v) (h : Finishes m p v lines)
  | fault (category : FaultClass) (h : Faults m p category fun _ => True)
  | endless (h : ∀ n, ∃ lines, RunsOn m p n lines)

theorem Discipline.Disciplined.outcome {p : Program} {g : Nat} {At : Nat → Discipline.Point → Prop}
    (hp : Discipline.Disciplined p g At) (m : Machine) : m.Outcome p := by
  by_cases hended : ∃ k, Busy p m k ∧ Discipline.Ends At g (trial p k m)
  · obtain ⟨k, hbusy, hends⟩ := hended
    cases htrial : trial p k m with
    | error e m' =>
      rw [htrial] at hends
      obtain ⟨f, rfl⟩ := hends
      exact .fault _ (faults_of_trial htrial hbusy trivial)
    | ok u m' =>
      rw [htrial] at hends
      obtain ⟨hstopped, ws, hframed⟩ := hends
      obtain ⟨v, hresult, hword⟩ := hframed.exists_result
      exact .result v _ hword (finishes_of_trial htrial hbusy hstopped hresult)
  · refine .endless fun n => ?_
    obtain ⟨hbusy, hlasts⟩ := (hp.ends_or_lasts m n).resolve_left hended
    cases htrial : trial p n m with
    | error e m' =>
      rw [htrial] at hlasts
      exact hlasts.elim
    | ok u m' =>
      rw [htrial] at hlasts
      obtain ⟨hrunning, rfl, ws, fs, horder⟩ := hlasts
      exact ⟨_, runsOn_of_trial htrial hbusy (horder.isActive hp hrunning)⟩

/-- A source text whose numbers have at most 4300 digits is refused for a reason, or it gets a
program with which every machine, whatever the size of its stack, comes to a word, faults or goes on
forever. -/
theorem source_outcomes (options : CompileOptions) {file source : String}
    (hlimit : 1 ≤ options.limit)
    (hdigits : ∀ ts, Source.tokens file source = .ok ts →
      ∀ t ∈ ts, t.kind = .number → t.lexeme.length ≤ 4300) :
    match (Compilation.ofSource options file source).result with
    | .error r => r.IsExplained
    | .ok compiled => ∀ m : Machine, m.Outcome compiled.program := by
  cases hresult : (Compilation.ofSource options file source).result with
  | error r => exact Compilation.isExplained_of_error hdigits hresult
  | ok compiled =>
    obtain ⟨tree, haccepted⟩ := Accepted.exists_of_result hlimit hresult
    obtain ⟨statements, fs, s, hclean, hprogram⟩ := haccepted.exists_clean
    intro m
    rw [hprogram]
    exact (Discipline.disciplined_program hclean options.comments).outcome m

/-- A program whose first function takes an argument, which its first call does not pass. -/
def needy : String :=
  "var g: int = 12 fn main(n: int) -> int \x7b g = g / n return main(n - 1) \x7d"

theorem source_outcomes_needy :
    ∃ ts compiled, Source.tokens "needy" needy = .ok ts ∧
      (∀ t ∈ ts, t.kind = .number → t.lexeme.length ≤ 4300) ∧
      (Compilation.ofSource {} "needy" needy).result = .ok compiled ∧
      ∀ m : Machine, m.Outcome compiled.program := by
  have hcompiles : (Compilation.ofSource {} "needy" needy).result.toBool = true := by
    decide +kernel
  have hall : (Source.tokens "needy" needy).toOption.any (·.all fun t =>
      t.kind = .number → t.lexeme.length ≤ 4300) = true := by
    decide +kernel
  cases hts : Source.tokens "needy" needy with
  | error d =>
    rw [hts] at hall
    cases hall
  | ok ts =>
    rw [hts] at hall
    have hdigits : ∀ t ∈ ts, t.kind = .number → t.lexeme.length ≤ 4300 := by
      simpa [Except.toOption, imp_iff_not_or] using hall
    have houtcomes := source_outcomes {} (by decide) fun us (hus : _ = Except.ok us) =>
      Except.ok.inj (hts.symm.trans hus) ▸ hdigits
    cases hcompiled : (Compilation.ofSource {} "needy" needy).result with
    | error r =>
      rw [hcompiled] at hcompiles
      cases hcompiles
    | ok compiled =>
      rw [hcompiled] at houtcomes
      exact ⟨ts, compiled, rfl, hdigits, rfl, houtcomes⟩

end StackLang
