import StackLang.Proofs.Simulation.Expression

/-!
# The code of statements

The code of a statement leads to the store that the statement leaves: behind the code, or with the
caller if the statement returns. There is one lemma for each way in which code is put together, and
from these the code of every statement follows by induction on its shape.
-/

namespace StackLang.Simulation

open Meaning
open StackLang.Tree (IsValue IsCondition IsStatement Chain blockNode walkAll)
open Grammar (plainNode declarationNode assignmentNode)

/-- The configuration after a statement: at an address, or with the caller. Outside functions
nothing returns. -/
def Site.flow (globals : List String) (site : Site) (pc : Nat) (flow : Flow) (s : Store) :
    Option Config :=
  match flow, site with
  | .next, _ => some (site.config globals pc s [])
  | .returned _, .outside => none
  | .returned v, .inside caller returnTo _ _ =>
    some { pc := returnTo, globals := globals.map fun name => s.value (.global name),
           activation := caller.withTemps (v :: caller.temps), output := s.output }

/-- A return does not depend on where the statement would have gone on. -/
theorem Site.flow_returned (globals : List String) (site : Site) (pc pc' : Nat) (v : Int)
    (s : Store) :
    site.flow globals pc (.returned v) s = site.flow globals pc' (.returned v) s := by
  cases site <;> rfl

/-- Code from one address to another carries out a computation. -/
def Carries (w : World) (k : Nat) (site : Site) (pc target : Nat) (x : Eval Flow) : Prop :=
  ∀ s, Simulates w.arity w.program k (site.config w.globals pc s []) (x s)
    (site.flow w.globals target)

/-- Carries out a second computation if the first one does not return. -/
def andThen (x y : Eval Flow) : Eval Flow :=
  x >>= fun
    | .next => y
    | .returned v => pure (.returned v)

/-! ## Code put together -/

section Pieces

variable {w : World} {k : Nat} {site : Site} {pc l m n target : Nat} {d : Draft} {s : Store}
  {temps : List Int} {v : Int}

theorem step_jump {distance : Int} (hhas : w.program.Has w.entries pc [d])
    (haction : d.action = .jump distance) (htarget : pc + distance = target)
    (hlt : target < w.program.size) :
    (site.config w.globals pc s temps).step w.arity w.program =
      .next (site.config w.globals target s temps) := by
  have hstep : (site.config w.globals pc s temps).step w.arity w.program = _ :=
    Config.step_of_has w.arity hhas
  have hpc : (site.config w.globals pc s temps).pc = pc := rfl
  rw [hstep, haction, Draft.Action.operation, hpc, htarget]
  simp [Config.perform, Config.jump, Site.config, hlt]

theorem step_jumpIfZero {distance : Int} (hhas : w.program.Has w.entries pc [d])
    (haction : d.action = .jumpIfZero distance) (htarget : pc + distance = target)
    (hlt : target < w.program.size) :
    (site.config w.globals pc s (v :: temps)).step w.arity w.program =
      .next (site.config w.globals (if v = 0 then target else pc + 1) s temps) := by
  have hstep : (site.config w.globals pc s (v :: temps)).step w.arity w.program = _ :=
    Config.step_of_has w.arity hhas
  have hpc : (site.config w.globals pc s (v :: temps)).pc = pc := rfl
  rw [hstep, haction, Draft.Action.operation, hpc, htarget]
  by_cases hv : v = 0
  · simp [Config.perform, Config.jump, Site.config, hlt, hv]
  · simp [Config.perform, Site.config, Config.advance, hv]

variable {x y : Eval Flow} {test : Eval Int} {body : Eval Flow}

theorem Carries.andThen (hx : Carries w k site pc m x) (hy : Carries w k site m target y) :
    Carries w k site pc target (andThen x y) := by
  intro s
  refine (hx s).bind_partial ?_
  intro flow s' c' _ hmiddle
  cases flow with
  | next =>
    obtain rfl := Option.some.inj hmiddle
    exact hy s'
  | returned v =>
    rw [Site.flow_returned w.globals site m target] at hmiddle
    exact Simulates.of_eq hmiddle

/-- Code that goes on elsewhere by a jump at its end. -/
theorem Carries.jump {distance : Int} (hx : Carries w k site pc m x)
    (hhas : w.program.Has w.entries m [d]) (haction : d.action = .jump distance)
    (htarget : m + distance = target) (hlt : target < w.program.size) :
    Carries w k site pc target x := by
  have hjump : Carries w k site m target (pure .next) := fun s =>
    Simulates.of_step (step_jump hhas haction htarget hlt) rfl
  have hpure : Simulation.andThen x (pure .next) = x := by
    funext s
    simp only [Simulation.andThen, bind, EStateM.bind]
    cases hxs : x s with
    | ok flow s' => cases flow <;> rfl
    | error e s' => rfl
  rw [← hpure]
  exact hx.andThen hjump

/-- A test, a jump past the first arm, the first arm, a jump past the second arm, the second arm. -/
theorem Carries.branch {d e : Draft} {past : Int}
    (htest : Pushes w k site pc l test)
    (hd : w.program.Has w.entries (pc + l) [d]) (hdaction : d.action = .jumpIfZero past)
    (hpast : ((pc + l : Nat) : Int) + past = (m + 1 : Nat))
    (hx : Carries w k site (pc + l + 1) m x) (he : w.program.Has w.entries m [e])
    (heaction : e.action = .jump (n + 1)) (hy : Carries w k site (m + 1) (m + 1 + n) y)
    (hlt : m + 1 + n < w.program.size) :
    Carries w k site pc (m + 1 + n) (test >>= fun v => if v ≠ 0 then x else y) := by
  have hxjump : Carries w k site (pc + l + 1) (m + 1 + n) x :=
    hx.jump he heaction (by omega) hlt
  intro s
  refine (htest s []).bind fun v s₁ _ => ?_
  have hstep : (site.config w.globals (pc + l) s₁ [v]).step w.arity w.program = _ :=
    step_jumpIfZero hd hdaction hpast (by omega)
  by_cases hv : v = 0
  · rw [if_pos hv] at hstep
    rw [if_neg (not_not.mpr hv)]
    exact (hy s₁).step hstep
  · rw [if_neg hv] at hstep
    rw [if_pos hv]
    exact (hxjump s₁).step hstep

theorem repeatWhile_succ (test : Eval Int) (body : Eval Flow) (clock : Nat) :
    repeatWhile test body (clock + 1) = test >>= fun v =>
      if v = 0 then pure .next else andThen body (repeatWhile test body clock) := by
  rw [repeatWhile]
  rfl

/-- A test, a jump past the body, the body, and a jump back. A clock of `j` allows `j` rounds, and
each of them takes a step. -/
theorem Carries.repeatWhile {d e : Draft} {past back : Int} (htest : Pushes w k site pc l test)
    (hd : w.program.Has w.entries (pc + l) [d]) (hdaction : d.action = .jumpIfZero past)
    (hpast : ((pc + l : Nat) : Int) + past = (m + 1 : Nat))
    (hbody : Carries w k site (pc + l + 1) m body) (he : w.program.Has w.entries m [e])
    (heaction : e.action = .jump back) (hback : (m : Int) + back = pc)
    (hlt : m + 1 < w.program.size) (hpc : pc ≤ m) {j : Nat} (hj : j ≤ k) :
    Carries w j site pc (m + 1) (repeatWhile test body j) := by
  induction j with
  | zero =>
    intro s
    exact ⟨0, _, le_rfl, rfl, rfl⟩
  | succ j ih =>
    intro s
    rw [repeatWhile_succ]
    refine ((htest s []).weaken hj).bind fun v s₁ _ => ?_
    have hstep : (site.config w.globals (pc + l) s₁ [v]).step w.arity w.program = _ :=
      step_jumpIfZero hd hdaction hpast hlt
    by_cases hv : v = 0
    · rw [if_pos hv] at hstep ⊢
      exact Simulates.of_step hstep rfl
    · rw [if_neg hv] at hstep ⊢
      refine Simulates.step hstep (((hbody s₁).weaken hj).bind_partial ?_)
      intro flow s₂ c' _ hmiddle
      cases flow with
      | next =>
        obtain rfl := Option.some.inj hmiddle
        have hjump : (site.config w.globals m s₂ []).step w.arity w.program = _ :=
          step_jump he heaction hback (by omega)
        exact (ih (Nat.le_of_succ_le hj) s₂).after (Config.after_succ hjump)
      | returned v =>
        rw [Site.flow_returned w.globals site m (m + 1)] at hmiddle
        exact Simulates.of_eq hmiddle

/-- A value and a store to a variable. -/
theorem Carries.write {place : Place} {kept : Variable} {comment : String}
    (hnodup : w.globals.Nodup) (hvalue : Pushes w k site pc l test)
    (hkeeping : Keeping w.globals site place kept)
    (hhas : w.program.Has w.entries (pc + l) [.store place comment]) :
    Carries w k site pc (pc + l + 1)
      (test >>= fun v => write kept v >>= fun _ => pure .next) := by
  have haction : (Draft.store place comment).action = .fixed (storeOf place) := by
    cases place <;> rfl
  intro s
  refine (hvalue s []).bind fun v s₁ _ => ?_
  have hstep : (site.config w.globals (pc + l) s₁ [v]).step w.arity w.program = _ :=
    Config.step_of_has w.arity hhas
  rw [haction] at hstep
  exact Simulates.of_step (hstep.trans (hkeeping.perform_store hnodup)) rfl

/-- A value that is dropped. -/
theorem Carries.discard {comment : String} (hvalue : Pushes w k site pc l test)
    (hhas : w.program.Has w.entries (pc + l) [.of .pop comment]) :
    Carries w k site pc (pc + l + 1) (test >>= fun _ => pure .next) := by
  intro s
  refine (hvalue s []).bind fun v s₁ _ => ?_
  have hstep : (site.config w.globals (pc + l) s₁ [v]).step w.arity w.program = _ :=
    Config.step_of_has w.arity hhas
  refine Simulates.of_step (hstep.trans ?_) rfl
  simp [Config.perform, Draft.of, Draft.Action.operation, Site.config, Config.advance]

/-- A value that is given back to the caller. -/
theorem Carries.giveBack {caller : Activation} {returnTo size count : Nat}
    {parameters : List String} {comment : String}
    (hsite : site = .inside caller returnTo parameters size) (hcount : count = parameters.length)
    (hvalue : Pushes w k site pc l test)
    (hhas : w.program.Has w.entries (pc + l) [.of (.giveBack count) comment]) :
    Carries w k site pc target (test >>= fun v => pure (.returned v)) := by
  subst hsite hcount
  intro s
  refine (hvalue s []).bind fun v s₁ _ => ?_
  have hstep : (Site.config w.globals (.inside caller returnTo parameters size) (pc + l) s₁
      [v]).step w.arity w.program = _ := Config.step_of_has w.arity hhas
  refine Simulates.of_step (hstep.trans ?_) rfl
  simp [Config.perform, Config.leaveCall, Draft.of, Draft.Action.operation, Site.config,
    Site.activation]

end Pieces

/-! ## Statements of the compiler -/

/-- A statement in which nothing is found stands in a program with more code behind it, and there is
room for what it declares. -/
structure Fits (w : World) (site : Site) (Γ : Context) (σ : Scope) (pc : Nat) (s : Stmt) :
    Prop where
  stands : Stands w site Γ σ
  room : site.Room w.globals (s.scopeAfter σ)
  findings : s.findings σ = []
  has : w.program.Has w.entries pc (s.code σ)
  more : pc + (s.code σ).length < w.program.size

/-- The code of a statement does what a computation does, wherever the statement fits. -/
def Implements (w : World) (k : Nat) (site : Site) (s : Stmt) (x : Context → Eval Flow) : Prop :=
  ∀ Γ σ pc, Fits w site Γ σ pc s → Carries w k site pc (pc + (s.code σ).length) (x Γ)

section Statements

variable {w : World} {k : Nat} {site : Site} {Γ : Context} {σ : Scope} {pc : Nat}
  {call : String → List Int → Eval Int} {s first second yes no : Stmt} {ns : List Tree}
  {x y : Context → Eval Flow}

/-- The point after nodes of the text. -/
def Context.passAll (Γ : Context) (ns : List Tree) : Context :=
  (ns.filterMap declares?).foldl Context.declare Γ

theorem Context.after_singleton (Γ : Context) (t : Tree) :
    Γ.after [t] = Context.passAll Γ t.walk := by
  rw [Meaning.Context.after, declaredNames, walkAll, walkAll, List.append_nil]
  rfl

/-- After a statement the names are known that its nodes declare. -/
theorem Fits.stands_after (h : Fits w site Γ σ pc s) (hfollows : s.Follows ns) :
    Stands w site (Context.passAll Γ ns) (s.scopeAfter σ) := by
  have hafter : s.scopeAfter σ = (ns.filterMap declares?).foldl Scope.declare σ := by
    rw [hfollows.scopeAfter σ ((hfollows.findings σ).mp h.findings), Scope.passAll_eq_foldl]
  constructor
  · have hroom := h.room
    rw [hafter] at hroom ⊢
    exact h.stands.agrees.declareAll hroom
  · rw [(grows_scopeAfter σ s).signatures, h.stands.signatures]

theorem implements_skip : Implements w k site .skip fun _ => pure .next :=
  fun _ _ _ _ _ => Simulates.of_eq rfl

theorem Implements.seq (hfollows : first.Follows ns) (hx : Implements w k site first x)
    (hy : Implements w k site second y) :
    Implements w k site (.seq first second) fun Γ => andThen (x Γ) (y (Context.passAll Γ ns)) := by
  intro Γ σ pc h
  have hfindings := h.findings
  have hhas := h.has
  have hmore := h.more
  rw [Stmt.findings, List.append_eq_nil_iff] at hfindings
  rw [Stmt.code, Program.has_append] at hhas
  rw [Stmt.code, List.length_append] at hmore ⊢
  have hfirst : Fits w site Γ σ pc first :=
    ⟨h.stands, h.room.of_grows (grows_scopeAfter _ second), hfindings.1, hhas.1, by omega⟩
  have hsecond : Fits w site (Context.passAll Γ ns) (first.scopeAfter σ)
      (pc + (first.code σ).length) second :=
    ⟨hfirst.stands_after hfollows, h.room, hfindings.2, hhas.2, by omega⟩
  rw [← Nat.add_assoc]
  exact (hx Γ σ pc hfirst).andThen (hy _ _ _ hsecond)

theorem Implements.branch {condition : Tree} {chained : Bool} (hw : w.Sound)
    (hcall : CallsRun w k call) (hcondition : condition.IsCondition) (hfollows : yes.Follows ns)
    (hx : Implements w k site yes x) (hy : Implements w k site no y) :
    Implements w k site (.branch chained (Expr.ofTree condition) yes no) fun Γ =>
      evaluate call Γ condition >>= fun v =>
        if v ≠ 0 then x Γ else y (Context.passAll Γ ns) := by
  intro Γ σ pc h
  have hfindings := h.findings
  have hhas := h.has
  have hmore := h.more
  rw [Stmt.findings, List.append_eq_nil_iff, List.append_eq_nil_iff] at hfindings
  obtain ⟨⟨hnone, hyesNone⟩, hnoNone⟩ := hfindings
  rw [Stmt.code, branchCode] at hhas hmore ⊢
  simp only [Program.has_append, List.length_append, List.length_singleton] at hhas hmore ⊢
  obtain ⟨⟨⟨⟨htest, hd⟩, hyesHas⟩, he⟩, hnoHas⟩ := hhas
  simp only [← Nat.add_assoc] at hmore hyesHas he hnoHas ⊢
  have hyes : Fits w site Γ σ _ yes :=
    ⟨h.stands, h.room.of_grows (grows_scopeAfter _ no), hyesNone, hyesHas, by omega⟩
  have hno : Fits w site (Context.passAll Γ ns) (yes.scopeAfter σ) _ no :=
    ⟨hyes.stands_after hfollows, h.room, hnoNone, hnoHas, by omega⟩
  exact Carries.branch (pushes_condition hcondition hw hcall h.stands hnone htest) hd rfl
    (by push_cast; ring) (hx _ _ _ hyes) he rfl (hy _ _ _ hno) hmore

theorem Implements.loop {condition : Tree} (hw : w.Sound) (hcall : CallsRun w k call)
    (hcondition : condition.IsCondition) (hx : Implements w k site s x) :
    Implements w k site (.loop (Expr.ofTree condition) s) fun Γ =>
      repeatWhile (evaluate call Γ condition) (x Γ) k := by
  intro Γ σ pc h
  have hfindings := h.findings
  have hhas := h.has
  have hmore := h.more
  rw [Stmt.findings, List.append_eq_nil_iff] at hfindings
  rw [Stmt.code, loopCode] at hhas hmore ⊢
  simp only [Program.has_append, List.length_append, List.length_singleton] at hhas hmore ⊢
  obtain ⟨⟨⟨htest, hd⟩, hbodyHas⟩, he⟩ := hhas
  simp only [← Nat.add_assoc] at hmore hbodyHas he ⊢
  have hbody : Fits w site Γ σ _ s := ⟨h.stands, h.room, hfindings.2, hbodyHas, by omega⟩
  exact Carries.repeatWhile (pushes_condition hcondition hw hcall h.stands hfindings.1 htest) hd rfl
    (by push_cast; ring) (hx _ _ _ hbody) he rfl (by push_cast; ring) hmore (by omega) le_rfl

theorem implements_discard {t : Tree} (hw : w.Sound) (hcall : CallsRun w k call)
    (ht : t.IsValue) :
    Implements w k site (.discard (Expr.ofTree t)) fun Γ =>
      evaluate call Γ t >>= fun _ => pure .next := by
  intro Γ σ pc h
  have hhas := h.has
  rw [Stmt.code, Program.has_append] at hhas
  rw [Stmt.code, List.length_append, ← Nat.add_assoc]
  exact Carries.discard (pushes_evaluate ht hw hcall h.stands h.findings hhas.1) hhas.2

theorem implements_assign {name : String} {t : Tree} {location : Option Location} (hw : w.Sound)
    (hcall : CallsRun w k call) (ht : t.IsValue) :
    Implements w k site (.assign (some name) (Expr.ofTree t) location) fun Γ =>
      evaluate call Γ t >>= fun v => write (Γ.denoted name) v >>= fun _ => pure .next := by
  intro Γ σ pc h
  have hfindings := h.findings
  have hhas := h.has
  rw [Stmt.findings, List.append_eq_nil_iff, Scope.variableFindings_eq_nil] at hfindings
  obtain ⟨place, hplace⟩ := Option.isSome_iff_exists.mp hfindings.2
  rw [Stmt.code, hplace, Program.has_append] at hhas
  rw [Stmt.code, List.length_append, ← Nat.add_assoc]
  exact Carries.write hw.nodup (pushes_evaluate ht hw hcall h.stands hfindings.1 hhas.1)
    (h.stands.agrees.keeping hplace) hhas.2

theorem implements_giveBack {t : Tree} {location : Option Location} (hw : w.Sound)
    (hcall : CallsRun w k call) (ht : t.IsValue) :
    Implements w k site (.giveBack (some (Expr.ofTree t)) location) fun Γ =>
      evaluate call Γ t >>= fun v => pure (.returned v) := by
  intro Γ σ pc h
  have hfindings := h.findings
  have hhas := h.has
  rw [Stmt.findings] at hfindings
  have hstands := h.stands
  obtain ⟨hagrees, -⟩ := h.stands
  cases hagrees with
  | outside _ hinside => simp [hinside] at hfindings
  | inside _ hinside harity =>
    simp only [hinside, Expr.findings?, Option.map_some, Option.getD_some] at hfindings
    simp only [Stmt.code, hinside, Program.has_append] at hhas
    exact Carries.giveBack rfl harity (pushes_evaluate ht hw hcall hstands hfindings hhas.1) hhas.2

/-- What is stored in a declared variable at first. -/
def initialValue (call : String → List Int → Eval Int) (Γ : Context) : Option Tree → Eval Int
  | some t => evaluate call Γ t
  | none => pure 0

theorem implements_declare {name : String} {value : Option Tree} (hw : w.Sound)
    (hcall : CallsRun w k call) (hvalue : ∀ t ∈ value, t.IsValue) :
    Implements w k site (.declare name (value.map Expr.ofTree)) fun Γ =>
      initialValue call (Γ.declare name) value >>= fun v =>
        write ((Γ.declare name).denoted name) v >>= fun _ => pure .next := by
  intro Γ σ pc h
  have hfindings := h.findings
  have hhas := h.has
  have hroom : site.Room w.globals (σ.declare name) := h.room
  have hstands : Stands w site (Γ.declare name) (σ.declare name) :=
    ⟨h.stands.agrees.declare hroom, (grows_declare σ name).signatures.trans h.stands.signatures⟩
  have hkeeping := hstands.agrees.keeping (h.stands.agrees.resolve?_declare name)
  rw [Stmt.findings] at hfindings
  cases value with
  | some t =>
    rw [Option.map_some, Stmt.code, Program.has_append] at hhas
    rw [Option.map_some, Stmt.code, List.length_append, ← Nat.add_assoc]
    have hnone : (Expr.ofTree t).findings (σ.declare name) = [] := by
      simpa [Expr.findings?] using hfindings
    exact Carries.write hw.nodup (pushes_evaluate (hvalue t rfl) hw hcall hstands hnone hhas.1)
      hkeeping hhas.2
  | none =>
    rw [Option.map_none, Stmt.code, Program.has_append] at hhas
    refine Carries.write hw.nodup (Pushes.of_perform hhas.1 ?_) hkeeping hhas.2
    intro s temps
    refine ⟨0, s, rfl, ?_⟩
    simp [Draft.of, Draft.Action.operation, Config.perform, Site.config, Config.advance, Word.wrap]

end Statements

/-! ## Statements of the text -/

section Trees

variable {w : World} {k : Nat} {site : Site} {call : String → List Int → Eval Int} {Γ : Context}

theorem executeAll_cons (t : Tree) (ts : List Tree) :
    executeAll call k Γ (t :: ts) =
      andThen (execute call k Γ t) (executeAll call k (Γ.after [t]) ts) := by
  rw [executeAll]
  rfl

theorem executeBlock_blockNode (place : Location) (body : List Tree) :
    executeBlock call k Γ (blockNode place body) = executeAll call k Γ body := by
  rw [blockNode, plainNode, executeBlock]

theorem execute_value {t : Tree} (h : t.IsValue) :
    execute call k Γ t = evaluate call Γ t >>= fun _ => pure .next := by
  cases h with
  | number digits location => rw [execute]
  | name name location => rw [execute]
  | negate operand location => rw [execute]
  | call name arguments location => rw [execute]
  | operator kind op left right location hkind htakes =>
    cases kind <;> first
      | cases htakes
      | exact absurd rfl hkind
      | rw [Tree.operatorNode, execute]

theorem execute_declaration (location : Location) (name type : String) (value : Option Tree) :
    execute call k Γ (declarationNode location name type value) =
      initialValue call (Γ.declare name) value >>= fun v =>
        write ((Γ.declare name).denoted name) v >>= fun _ => pure .next := by
  have hname : Tree.Attributes.get? [("name", name), ("type", type)] "name" = some name := rfl
  cases value with
  | none =>
    rw [declarationNode, Option.toList_none, execute]
    · rfl
    · exact hname
  | some t =>
    rw [declarationNode, Option.toList_some, execute]
    · rfl
    · exact hname

theorem execute_assignment (location : Location) (name : String) (value : Tree) :
    execute call k Γ (assignmentNode location name value) =
      evaluate call Γ value >>= fun v => write (Γ.denoted name) v >>= fun _ => pure .next := by
  rw [assignmentNode, execute]
  rfl

theorem execute_loop (location place : Location) (condition : Tree) (body : List Tree) :
    execute call k Γ (plainNode .loop location [condition, blockNode place body]) =
      repeatWhile (evaluate call Γ condition) (executeAll call k Γ body) k := by
  rw [plainNode, execute, executeBlock_blockNode]

theorem execute_giveBack (location : Location) (value : Tree) :
    execute call k Γ (plainNode .giveBack location [value]) =
      evaluate call Γ value >>= fun v => pure (.returned v) := by
  rw [plainNode, execute]

theorem execute_conditional (location place : Location) (condition : Tree) (body : List Tree)
    (rest : Chain) :
    execute call k Γ (plainNode .conditional location
        (condition :: blockNode place body :: rest.trees)) =
      evaluate call Γ condition >>= fun v =>
        if v ≠ 0 then executeAll call k Γ body
        else executeBranches call k (Γ.after [blockNode place body]) rest.trees := by
  rw [plainNode, execute, executeBranch, executeBlock_blockNode]

theorem executeBranches_elseIf (location place : Location) (condition : Tree) (body : List Tree)
    (rest : Chain) :
    executeBranches call k Γ (Chain.elseIf location place condition body rest).trees =
      evaluate call Γ condition >>= fun v =>
        if v ≠ 0 then executeAll call k Γ body
        else executeBranches call k (Γ.after [blockNode place body]) rest.trees := by
  rw [Chain.trees, plainNode, executeBranches, executeBlock_blockNode]

theorem implements_executeAll {ts : List Tree} (hstatements : ∀ t ∈ ts, t.IsStatement)
    (h : ∀ t ∈ ts, Implements w k site (Stmt.ofTree t) fun Γ => execute call k Γ t) :
    Implements w k site (Stmt.ofTrees ts) fun Γ => executeAll call k Γ ts := by
  induction ts with
  | nil =>
    simp only [executeAll]
    exact implements_skip
  | cons t ts ih =>
    have ht := h t List.mem_cons_self
    have hts := ih (fun u hu => hstatements u (List.mem_cons_of_mem t hu))
      fun u hu => h u (List.mem_cons_of_mem t hu)
    have hseq := ht.seq (hstatements t List.mem_cons_self).follows hts
    simp only [executeAll_cons, Context.after_singleton]
    exact hseq

theorem implements_executeBranches {rest : Chain} (hw : w.Sound) (hcall : CallsRun w k call)
    (hconditions : ∀ c ∈ rest.conditions, c.IsCondition)
    (hstatements : ∀ t ∈ rest.statements, t.IsStatement)
    (h : ∀ t ∈ rest.statements, Implements w k site (Stmt.ofTree t) fun Γ => execute call k Γ t) :
    Implements w k site (Stmt.ofChain rest) fun Γ => executeBranches call k Γ rest.trees := by
  induction rest with
  | none =>
    simp only [Chain.trees, executeBranches]
    exact implements_skip
  | otherwise location place body =>
    simp only [Chain.trees, plainNode, executeBranches, executeBlock_blockNode]
    exact implements_executeAll hstatements h
  | elseIf location place condition body rest ih =>
    have hbody : ∀ t ∈ body, t.IsStatement := fun t ht =>
      hstatements t (List.mem_append_left _ ht)
    have hrest := ih (fun c hc => hconditions c (List.mem_cons_of_mem _ hc))
      (fun t ht => hstatements t (List.mem_append_right _ ht))
      fun t ht => h t (List.mem_append_right _ ht)
    have hyes := implements_executeAll hbody fun t ht => h t (List.mem_append_left _ ht)
    have hfollows := Stmt.follows_block place fun t ht => (hbody t ht).follows
    simp only [executeBranches_elseIf, Context.after_singleton]
    exact Implements.branch hw hcall (hconditions condition List.mem_cons_self) hfollows hyes hrest

/-- The code of a statement of the text carries it out. -/
theorem implements_execute {t : Tree} (ht : t.IsStatement) (hw : w.Sound)
    (hcall : CallsRun w k call) :
    Implements w k site (Stmt.ofTree t) fun Γ => execute call k Γ t := by
  induction ht with
  | function location start place name type parameters body =>
    intro Γ σ pc h
    have hfindings := h.findings
    rw [Stmt.ofTree_function, Stmt.findings] at hfindings
    cases hfindings
  | declaration location name type value hvalue =>
    simp only [Stmt.ofTree_declaration, execute_declaration]
    exact implements_declare hw hcall hvalue
  | assignment location name value hvalue =>
    simp only [Stmt.ofTree_assignment, execute_assignment]
    exact implements_assign hw hcall hvalue
  | conditional location place condition body rest hcondition hbody hconditions hrest ihbody
    ihrest =>
    have hfollows := Stmt.follows_block place fun t ht => (hbody t ht).follows
    simp only [Stmt.ofTree_conditional location place body rest hcondition, execute_conditional,
      Context.after_singleton]
    exact Implements.branch hw hcall hcondition hfollows (implements_executeAll hbody ihbody)
      (implements_executeBranches hw hcall hconditions hrest ihrest)
  | loop location place condition body hcondition hbody ihbody =>
    simp only [Stmt.ofTree_loop, execute_loop]
    exact Implements.loop hw hcall hcondition (implements_executeAll hbody ihbody)
  | giveBack location value hvalue =>
    simp only [Stmt.ofTree_giveBack, execute_giveBack]
    exact implements_giveBack hw hcall hvalue
  | value t hvalue =>
    simp only [Stmt.ofTree_value hvalue, execute_value hvalue]
    exact implements_discard hw hcall hvalue

end Trees

end StackLang.Simulation
