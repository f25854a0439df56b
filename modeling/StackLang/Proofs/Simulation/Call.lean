import StackLang.Proofs.Simulation.Statement

/-!
# The code of calls

A call makes a frame for the function, the function reserves its variables and carries out its body,
and the return leaves the value with the caller. So the instructions for calls do what calls mean,
by induction on the clock: within a call the clock is smaller.
-/

namespace StackLang.Simulation

open Meaning
open StackLang.Tree (IsStatement blockNode)

/-- The code of a function of the text, and the scope that the compiler has in its body. -/
structure Routine (w : World) (g : Tree) (address : Nat) (place : Location) (body : List Tree)
    (σ : Scope) (size : Nat) : Prop where
  block : g.first? .block = some (blockNode place body)
  statements : ∀ t ∈ body, t.IsStatement
  nodup : (parameterNames g).Nodup
  arity : w.arity address = (parameterNames g).length
  has : ∃ (d : Draft) (zero exit : String), d.action = .fixed (.enter size) ∧
    w.program.Has w.entries address (d :: ((Stmt.ofTrees body).code σ ++
      [.of (.push 0) zero, .of (.giveBack (parameterNames g).length) exit]))
  findings : (Stmt.ofTrees body).findings σ = []
  frameSize : ((Stmt.ofTrees body).scopeAfter σ).frameSize ≤ size
  stands (caller : Activation) (returnTo : Nat) :
    Stands w (.inside caller returnTo (parameterNames g) size) (.inside (parameterNames g) []) σ

/-- Every function of the text has its code. -/
def World.Linked (w : World) : Prop :=
  ∀ name g address, functionNamed? w.tree name = some g → w.entries.lookup name = some address →
    ∃ place body σ size, Routine w g address place body σ size

/-! ## Frames -/

/-- The arguments of a call are the values of the parameters. -/
theorem map_lookup_zip {names : List String} {values : List Int} (hnodup : names.Nodup)
    (hlength : values.length = names.length) :
    names.map (fun name => ((names.zip values).lookup name).getD 0) = values := by
  induction names generalizing values with
  | nil => exact (List.length_eq_zero_iff.mp hlength).symm
  | cons name names ih =>
    obtain ⟨v, vs, rfl⟩ := List.exists_cons_of_length_eq_add_one hlength
    obtain ⟨hname, hnames⟩ := List.nodup_cons.mp hnodup
    have hrest : names.map (fun n => (((name :: names).zip (v :: vs)).lookup n).getD 0) =
        names.map fun n => ((names.zip vs).lookup n).getD 0 := by
      apply List.map_congr_left
      intro n hn
      have hne : (n == name) = false := beq_false_of_ne fun heq => hname (heq ▸ hn)
      simp [List.lookup_cons, hne]
    rw [List.map_cons, hrest, ih hnames (Nat.succ.inj hlength)]
    simp

section Frames

variable {w : World} {site : Site} {s callee : Store} {temps values : List Int} {v : Int}
  {names : List String} {pc address size : Nat}

/-- The frame that a call makes and the function fills with zeros. -/
theorem config_enter (hnodup : names.Nodup) (hlength : values.length = names.length)
    (caller : Activation) (returnTo : Nat) :
    Site.config w.globals (.inside caller returnTo names size) pc (s.enter (names.zip values)) [] =
      { pc, globals := w.globals.map fun name => s.value (.global name),
        activation := .call caller values returnTo (List.replicate size 0) [],
        output := s.output } := by
  have hzeros : (List.range size).map (fun _ => (0 : Int)) = List.replicate size 0 := by
    rw [List.map_const', List.length_range]
  simp only [Site.config, Site.activation, Store.enter, map_lookup_zip hnodup hlength, hzeros]

/-- The caller goes on with the value and the global variables that the function leaves. -/
theorem flow_returned_eq (returnTo : Nat) :
    Site.flow w.globals (.inside (site.activation s temps) returnTo names size) pc (.returned v)
        callee =
      some (site.config w.globals returnTo (s.leave callee) (v :: temps)) := by
  have hactivation : site.activation (s.leave callee) (v :: temps) =
      site.activation s (v :: temps) := by
    cases site <;> rfl
  simp only [Site.flow, Site.config, hactivation, Site.withTemps_activation,
    Site.temps_activation]
  rfl

/-- A call and the reservation at the start of the function. -/
theorem after_call (site : Site) (s : Store) (temps : List Int) {d e : Draft}
    (hd : w.program.Has w.entries pc [d])
    (hcall : d.action.operation w.entries pc = .call address)
    (he : w.program.Has w.entries address [e]) (henter : e.action = .fixed (.enter size))
    (harity : w.arity address = names.length) (hnodup : names.Nodup)
    (hlength : values.length = names.length) :
    (site.config w.globals pc s (values.reverse ++ temps)).after w.arity w.program 2 =
      some (Site.config w.globals (.inside (site.activation s temps) (pc + 1) names size)
        (address + 1) (s.enter (names.zip values)) []) := by
  have hlt := he.lt_size
  have hstep : (site.config w.globals pc s (values.reverse ++ temps)).step w.arity w.program =
      .next { pc := address, globals := w.globals.map fun name => s.value (.global name),
              activation := .call (site.activation s temps) values (pc + 1) [] [],
              output := s.output } := by
    have hperform := Config.step_of_has (c := site.config w.globals pc s (values.reverse ++ temps))
      w.arity hd
    rw [hperform]
    change Config.perform _ _ _ (d.action.operation w.entries pc) = _
    rw [hcall]
    simp [Config.perform, Config.enterCall, Config.called, Site.config, harity, ← hlength, hlt]
  rw [Config.after_succ hstep]
  have henterStep : (Config.mk address (w.globals.map fun name => s.value (.global name))
      (.call (site.activation s temps) values (pc + 1) [] []) s.output).step w.arity w.program =
      .next (Site.config w.globals (.inside (site.activation s temps) (pc + 1) names size)
        (address + 1) (s.enter (names.zip values)) []) := by
    rw [config_enter hnodup hlength]
    have hperform := Config.step_of_has (c := Config.mk address
      (w.globals.map fun name => s.value (.global name))
      (.call (site.activation s temps) values (pc + 1) [] []) s.output) w.arity he
    rw [hperform, henter]
    simp [Draft.Action.operation, Config.perform, Config.reserve]
  rw [Config.after_succ henterStep]
  rfl

/-- What happens in a frame is seen by the caller through the global variables and the output. -/
theorem Simulates.inFrame {k : Nat} {c : Config} {x : Eval Int} {arguments : List (String × Int)}
    {inner target : Int → Store → Option Config}
    (h : Simulates w.arity w.program k c (x (s.enter arguments)) inner)
    (htarget : ∀ v callee, inner v callee = target v (s.leave callee)) :
    Simulates w.arity w.program k c (inFrame arguments x s) target := by
  unfold Meaning.inFrame
  cases hx : x (s.enter arguments) with
  | ok v callee =>
    rw [hx] at h
    obtain ⟨n, c', hinner, hn⟩ := h
    exact ⟨n, c', (htarget v callee).symm.trans hinner, hn⟩
  | error e callee =>
    rw [hx] at h
    cases e with
    | divisionByZero => exact h
    | timeout => exact h
    | stuck => exact h

end Frames

/-! ## Functions -/

section Functions

variable {w : World} {k : Nat} {g : Tree} {address size returnTo : Nat} {place : Location}
  {body : List Tree} {σ : Scope} {caller : Activation}

/-- The body of a function and the return at its end. -/
def bodyOf (call : String → List Int → Eval Int) (clock : Nat) (parameters : List String)
    (block : Tree) : Eval Int :=
  executeBlock call clock (.inside parameters []) block >>= fun
    | .next => pure 0
    | .returned v => pure v

/-- A function that comes to the end of its code gives zero back. -/
theorem after_end {pc : Nat} {names : List String} {zero exit : String} (s : Store)
    (h : w.program.Has w.entries pc
      [.of (.push 0) zero, .of (.giveBack names.length) exit]) :
    ∃ c, Site.flow w.globals (.inside caller returnTo names size) pc (.returned 0) s = some c ∧
      (Site.config w.globals (.inside caller returnTo names size) pc s []).after w.arity w.program
        2 = some c := by
  obtain ⟨hzero, hexit⟩ := Program.has_cons.mp h
  refine ⟨_, rfl, ?_⟩
  have hpush : (Site.config w.globals (.inside caller returnTo names size) pc s []).step w.arity
      w.program = .next (Site.config w.globals (.inside caller returnTo names size) (pc + 1) s
        [0]) := by
    have hstep := Config.step_of_has
      (c := Site.config w.globals (.inside caller returnTo names size) pc s []) w.arity hzero
    rw [hstep]
    simp [Draft.of, Draft.Action.operation, Config.perform, Site.config, Config.advance, Word.wrap]
  have hreturn := Config.step_of_has
    (c := Site.config w.globals (.inside caller returnTo names size) (pc + 1) s [0]) w.arity hexit
  rw [Config.after_succ hpush, Config.after, hreturn]
  simp [Draft.of, Draft.Action.operation, Config.perform, Config.leaveCall, Site.config,
    Site.activation, Config.after]

/-- The code of a function after its reservation carries out its body. -/
theorem Routine.simulates_body (h : Routine w g address place body σ size) (hw : w.Sound)
    {call : String → List Int → Eval Int} (hcall : CallsRun w k call) (caller : Activation)
    (returnTo : Nat) (s : Store) :
    Simulates w.arity w.program k
      (Site.config w.globals (.inside caller returnTo (parameterNames g) size) (address + 1) s [])
      (bodyOf call k (parameterNames g) (blockNode place body) s)
      fun v callee => Site.flow w.globals (.inside caller returnTo (parameterNames g) size) address
        (.returned v) callee := by
  obtain ⟨d, zero, exit, henter, hcode⟩ := h.has
  obtain ⟨-, hcode⟩ := Program.has_cons.mp hcode
  obtain ⟨hbody, hend⟩ := Program.has_append.mp hcode
  have hlt := (Program.has_cons.mp hend).1.lt_size
  have hfits : Fits w (.inside caller returnTo (parameterNames g) size)
      (.inside (parameterNames g) []) σ (address + 1) (Stmt.ofTrees body) :=
    ⟨h.stands caller returnTo, h.frameSize, h.findings, hbody, hlt⟩
  have himplements : Implements w k (.inside caller returnTo (parameterNames g) size)
      (Stmt.ofTrees body) fun Γ => executeAll call k Γ body :=
    implements_executeAll h.statements fun t ht => implements_execute (h.statements t ht) hw hcall
  have hcarries := himplements _ _ _ hfits s
  rw [bodyOf, executeBlock_blockNode]
  refine hcarries.bind_partial ?_
  intro flow callee c' _ hmiddle
  cases flow with
  | next =>
    obtain rfl := Option.some.inj hmiddle
    obtain ⟨c, hflow, hafter⟩ := after_end callee hend
    exact ⟨2, c, hflow, hafter⟩
  | returned v => exact Simulates.of_eq hmiddle

theorem callAt_user {name : String} {values : List Int} (clock : Nat)
    (hg : functionNamed? w.tree name = some g)
    (hblock : g.first? .block = some (blockNode place body))
    (hlength : values.length = (parameterNames g).length) :
    callAt w.tree (clock + 1) name values =
      inFrame ((parameterNames g).zip values)
        (bodyOf (callAt w.tree clock) clock (parameterNames g) (blockNode place body)) := by
  simp only [callAt, hg, hblock, if_pos hlength]
  rfl

theorem callAt_print (clock : Nat) (v : Int) (h : functionNamed? w.tree "print" = none) :
    callAt w.tree (clock + 1) "print" [v] = print v := by
  simp only [callAt, h]

/-- The instructions for calls do what calls mean at every clock. -/
theorem callsRun_callAt (hw : w.Sound) (hlinked : w.Linked) (k : Nat) :
    CallsRun w k (callAt w.tree k) := by
  induction k with
  | zero =>
    constructor
    · intro name g address values site pc d s temps _ _ _ _ _
      exact ⟨0, _, le_rfl, rfl, rfl⟩
    · intro site pc d v s temps _ _ _
      exact ⟨0, _, le_rfl, rfl, rfl⟩
  | succ k ih =>
    constructor
    · intro name g address values site pc d s temps hg hlength haddress hhas hoperation
      obtain ⟨place, body, σ, size, hroutine⟩ := hlinked name g address hg haddress
      obtain ⟨e, zero, exit, henter, hcode⟩ := hroutine.has
      have hafter := after_call site s temps hhas hoperation (Program.has_cons.mp hcode).1 henter
        hroutine.arity hroutine.nodup hlength
      rw [callAt_user k hg hroutine.block hlength]
      have hbody := hroutine.simulates_body hw ih (site.activation s temps) (pc + 1)
        (s.enter ((parameterNames g).zip values))
      have hframe : Simulates w.arity w.program k _
          (inFrame ((parameterNames g).zip values) _ s)
          fun v s' => some (site.config w.globals (pc + 1) s' (v :: temps)) :=
        hbody.inFrame fun v callee => flow_returned_eq (pc + 1)
      -- The call and the reservation are two steps more than the smaller clock asks for.
      exact (hframe.after hafter).weaken (by omega)
    · intro site pc d v s temps hprint hhas hoperation
      rw [callAt_print k v hprint]
      have hstep := Config.step_of_has (c := site.config w.globals pc s (v :: temps)) w.arity hhas
      change _ = Config.perform _ _ _ (d.action.operation w.entries pc) at hstep
      rw [hoperation] at hstep
      refine Simulates.of_step (hstep.trans ?_) rfl
      have hactivation (output : List String) :
          site.activation { s with output } (v :: temps) = site.activation s (v :: temps) := by
        cases site <;> rfl
      simp [Config.perform, Site.config, Config.advance, hactivation, Text.decimal]

end Functions

end StackLang.Simulation
