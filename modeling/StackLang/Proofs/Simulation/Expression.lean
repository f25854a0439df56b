import Mathlib.Data.Nat.Digits.Lemmas
import StackLang.Proofs.Simulation.Code
import StackLang.Proofs.Simulation.Site

/-!
# The code of values

The code of a value pushes what the value means, provided that the code of calls does.
-/

namespace StackLang.Simulation

open Meaning
open StackLang.Tree (IsValue IsCondition operatorNode)

/-- A program tree with the program made of it: the entries of its functions, how many arguments the
function at an address takes, the slots of the global variables and the signatures. -/
structure World where
  tree : Tree
  program : Program
  entries : List (String × Nat)
  arity : Int → Nat
  globals : List String
  signatures : List Signature

/-- What the compiler knows of the names of a program is right. -/
structure World.Sound (w : World) : Prop where
  nodup : w.globals.Nodup
  defined {name : String} {f : Signature} :
    w.signatures.find? (fun f => some f.name = some name) = some f →
      ∃ g address, functionNamed? w.tree name = some g ∧ f.arity = (parameterNames g).length ∧
        w.entries.lookup name = some address
  absent {name : String} :
    w.signatures.find? (fun f => some f.name = some name) = none →
      functionNamed? w.tree name = none

/-- The scope of the compiler at a point knows the names of the program that can be meant there. -/
structure Stands (w : World) (site : Site) (Γ : Context) (σ : Scope) : Prop where
  agrees : Agrees w.globals site Γ σ
  signatures : σ.signatures = w.signatures

/-- Code of `length` instructions pushes the result of a computation. -/
def Pushes (w : World) (k : Nat) (site : Site) (pc length : Nat) (x : Eval Int) : Prop :=
  ∀ s temps, Simulates w.arity w.program k (site.config w.globals pc s temps) (x s) fun v s' =>
    some (site.config w.globals (pc + length) s' (v :: temps))

/-- Code of `length` instructions pushes the results of a computation, the first one first. -/
def PushesAll (w : World) (k : Nat) (site : Site) (pc length : Nat) (x : Eval (List Int)) : Prop :=
  ∀ s temps, Simulates w.arity w.program k (site.config w.globals pc s temps) (x s) fun vs s' =>
    some (site.config w.globals (pc + length) s' (vs.reverse ++ temps))

/-- The instructions for calls do what calls mean. -/
structure CallsRun (w : World) (k : Nat) (call : String → List Int → Eval Int) : Prop where
  user {name : String} {g : Tree} {address : Nat} {values : List Int} {site : Site} {pc : Nat}
    {d : Draft} (s : Store) (temps : List Int) :
    functionNamed? w.tree name = some g → values.length = (parameterNames g).length →
    w.entries.lookup name = some address → w.program.Has w.entries pc [d] →
    d.action.operation w.entries pc = .call address →
    Simulates w.arity w.program k (site.config w.globals pc s (values.reverse ++ temps))
      (call name values s) fun v s' => some (site.config w.globals (pc + 1) s' (v :: temps))
  print {site : Site} {pc : Nat} {d : Draft} {v : Int} (s : Store) (temps : List Int) :
    functionNamed? w.tree "print" = none → w.program.Has w.entries pc [d] →
    d.action.operation w.entries pc = .print →
    Simulates w.arity w.program k (site.config w.globals pc s (v :: temps))
      (call "print" [v] s) fun v s' => some (site.config w.globals (pc + 1) s' (v :: temps))

/-! ## Words -/

/-- The digits of a text are read as a number from the left or from the right. -/
theorem ofAsciiDigits_eq (cs : List Char) :
    Text.ofAsciiDigits cs = Nat.ofDigits 10 (cs.reverse.map fun c => c.toNat - '0'.toNat) := by
  have hfold (ds : List Nat) (n : Nat) :
      ds.foldl (fun n d => 10 * n + d) n = Nat.ofDigits 10 (ds.reverse ++ [n]) := by
    induction ds generalizing n with
    | nil => simp
    | cons d ds ih =>
      rw [List.foldl_cons, ih, List.reverse_cons, List.append_assoc, Nat.ofDigits_append,
        Nat.ofDigits_append]
      congr 2
      simp [Nat.ofDigits_cons]
      ring
  rw [Text.ofAsciiDigits, Text.ofDigits, hfold, Nat.ofDigits_append, List.map_reverse]
  simp

theorem literal_eq (digits : String) :
    literal digits = Word.wrap (Text.ofAsciiDigits digits.toList) := by
  rw [literal, ofAsciiDigits_eq]

theorem arithmetic_spelling (op : Operator) (a b : Int) :
    arithmetic op.spelling a b =
      match op.compute? a b with
      | some v => pure v
      | none => throw .divisionByZero := by
  cases op with
  | div =>
    by_cases hb : b = 0 <;>
      simp [arithmetic, Operator.spelling, Operator.compute?, Word.divide?, hb]
  | _ => simp [arithmetic, Operator.spelling, Operator.compute?, Operator.truth]

/-! ## Values -/

section Values

variable {w : World} {k : Nat} {call : String → List Int → Eval Int} {σ : Scope} {Γ : Context}
  {site : Site} {pc : Nat}

theorem evaluate_operatorNode {kind : Tree.Kind} {op : Operator} (left right : Tree)
    (location : Option Location) (h : kind.takes op = true) :
    evaluate call Γ (operatorNode kind op left right location) =
      evaluate call Γ left >>= fun a => evaluate call Γ right >>= fun b =>
        arithmetic op.spelling a b := by
  cases kind <;> first
    | cases h
    | rw [operatorNode, evaluate]; rfl

/-- One instruction that pushes what a computation gives. -/
theorem Pushes.of_perform {x : Eval Int} {d : Draft} (hhas : w.program.Has w.entries pc [d])
    (h : ∀ s temps, ∃ v s', x s = .ok v s' ∧
      (site.config w.globals pc s temps).perform w.arity w.program.size
        (d.action.operation w.entries pc) =
          .next (site.config w.globals (pc + 1) s' (v :: temps))) :
    Pushes w k site pc 1 x := by
  intro s temps
  obtain ⟨v, s', hx, hperform⟩ := h s temps
  have hstep : (site.config w.globals pc s temps).step w.arity w.program = _ :=
    Config.step_of_has w.arity hhas
  rw [hx]
  exact Simulates.of_step (hstep.trans hperform) rfl

/-- Code for the operands, and one instruction for the operator. -/
theorem Pushes.operator {kind : Tree.Kind} {op : Operator} {left right : Tree}
    {location : Option Location} {l r : Nat} {comment : String} (htakes : kind.takes op = true)
    (hleft : Pushes w k site pc l (evaluate call Γ left))
    (hright : Pushes w k site (pc + l) r (evaluate call Γ right))
    (hhas : w.program.Has w.entries (pc + l + r) [.of (.compute op) comment]) :
    Pushes w k site pc (l + r + 1)
      (evaluate call Γ (operatorNode kind op left right location)) := by
  intro s temps
  rw [evaluate_operatorNode left right location htakes]
  refine (hleft s temps).bind fun a s₁ _ => (hright s₁ (a :: temps)).bind fun b s₂ _ => ?_
  have hstep : (site.config w.globals (pc + l + r) s₂ (b :: a :: temps)).step w.arity w.program =
      _ := Config.step_of_has w.arity hhas
  rw [arithmetic_spelling]
  cases hresult : op.compute? a b with
  | some v =>
    refine Simulates.of_step (hstep.trans ?_) rfl
    simp [Config.perform, Draft.of, Draft.Action.operation, Site.config, Config.advance, hresult,
      Nat.add_assoc]
  | none =>
    refine ⟨0, _, rfl, hstep.trans ?_, rfl⟩
    simp [Config.perform, Draft.of, Draft.Action.operation, Site.config, hresult]

theorem PushesAll.cons {t : Tree} {ts : List Tree} {l r : Nat}
    (hfirst : Pushes w k site pc l (evaluate call Γ t))
    (hrest : PushesAll w k site (pc + l) r (evaluateAll call Γ ts)) :
    PushesAll w k site pc (l + r) (evaluateAll call Γ (t :: ts)) := by
  intro s temps
  rw [evaluateAll]
  refine (hfirst s temps).bind fun v s₁ _ => (hrest s₁ (v :: temps)).bind fun vs s₂ _ => ?_
  refine Simulates.of_eq ?_
  simp [Nat.add_assoc]

/-- The number of values is that of the trees. -/
theorem length_of_evaluateAll {ts : List Tree} {s s' : Store} {vs : List Int}
    (h : evaluateAll call Γ ts s = .ok vs s') : vs.length = ts.length := by
  induction ts generalizing s vs s' with
  | nil =>
    rw [evaluateAll] at h
    cases h
    rfl
  | cons t ts ih =>
    rw [evaluateAll] at h
    simp only [bind, EStateM.bind] at h
    split at h
    · split at h
      · rename_i hts
        cases h
        exact congrArg Nat.succ (ih hts)
      · cases h
    · cases h

/-- The code of the arguments of a call pushes all of them. -/
theorem PushesAll.of_forall {ts : List Tree}
    (h : ∀ t ∈ ts, ∀ pc, w.program.Has w.entries pc ((Expr.ofTree t).code σ) →
      Pushes w k site pc ((Expr.ofTree t).code σ).length (evaluate call Γ t))
    (hhas : w.program.Has w.entries pc (Expr.codeAll σ (ts.map Expr.ofTree))) :
    PushesAll w k site pc (Expr.codeAll σ (ts.map Expr.ofTree)).length
      (evaluateAll call Γ ts) := by
  induction ts generalizing pc with
  | nil =>
    intro s temps
    rw [evaluateAll]
    exact Simulates.of_eq rfl
  | cons t ts ih =>
    rw [List.map_cons, Expr.codeAll, Program.has_append] at hhas
    rw [List.map_cons, Expr.codeAll, List.length_append]
    exact PushesAll.cons (h t List.mem_cons_self pc hhas.1)
      (ih (fun u hu => h u (List.mem_cons_of_mem t hu)) hhas.2)

/-- A call of a function that the program defines. -/
theorem Pushes.call_user {name : String} {arguments : List Tree} {location : Option Location}
    {l : Nat} {f : Signature} (hw : w.Sound) (hcall : CallsRun w k call)
    (hsignatures : σ.signatures = w.signatures) (hf : σ.signature? (some name) = some f)
    (hcount : arguments.length = f.arity)
    (harguments : PushesAll w k site pc l (evaluateAll call Γ arguments))
    (hhas : w.program.Has w.entries (pc + l) [σ.callDraft (some name)]) :
    Pushes w k site pc (l + 1)
      (evaluate call Γ { kind := .functionCall, attributes := [("name", name)],
                         children := arguments, location }) := by
  have hdraft : σ.callDraft (some name) =
      { action := .call name 0, comment := some ("call " ++ name) } := by
    simp only [Scope.callDraft, hf]
  rw [Scope.signature?, hsignatures] at hf
  obtain ⟨g, address, hg, harity, haddress⟩ := hw.defined hf
  rw [hdraft] at hhas
  intro s temps
  rw [evaluate]
  refine (harguments s temps).bind fun values s₁ hvalues => ?_
  have hlength : values.length = (parameterNames g).length := by
    rw [length_of_evaluateAll hvalues, hcount, harity]
  have hoperation : Draft.Action.operation w.entries (pc + l) (.call name 0) =
      .call address := by
    simp [Draft.Action.operation, haddress]
  exact hcall.user s₁ temps hg hlength haddress hhas hoperation

/-- A call that prints. -/
theorem Pushes.call_print {argument : Tree} {location : Option Location} {l : Nat} (hw : w.Sound)
    (hcall : CallsRun w k call) (hsignatures : σ.signatures = w.signatures)
    (hprints : (σ.signature? (some printName)).isNone)
    (hargument : PushesAll w k site pc l (evaluateAll call Γ [argument]))
    (hhas : w.program.Has w.entries (pc + l) [.bare .print]) :
    Pushes w k site pc (l + 1)
      (evaluate call Γ { kind := .functionCall, attributes := [("name", printName)],
                         children := [argument], location }) := by
  rw [Scope.signature?, hsignatures, Option.isNone_iff_eq_none] at hprints
  intro s temps
  rw [evaluate]
  refine (hargument s temps).bind fun values s₁ hvalues => ?_
  obtain ⟨v, rfl⟩ := List.length_eq_one_iff.mp (length_of_evaluateAll hvalues)
  exact hcall.print s₁ temps (hw.absent hprints) hhas rfl

/-- The code of a value in which nothing is found pushes what the value means. -/
theorem pushes_evaluate {t : Tree} (ht : t.IsValue) (hw : w.Sound) (hcall : CallsRun w k call)
    (hstands : Stands w site Γ σ)
    (hfindings : (Expr.ofTree t).findings σ = [])
    (hhas : w.program.Has w.entries pc ((Expr.ofTree t).code σ)) :
    Pushes w k site pc ((Expr.ofTree t).code σ).length (evaluate call Γ t) := by
  induction ht generalizing pc with
  | number digits location hne hdigits =>
    rw [Expr.ofTree_number location hne hdigits, Expr.code] at hhas ⊢
    refine Pushes.of_perform hhas fun s temps => ⟨literal digits, s, ?_, ?_⟩
    · rw [evaluate]
      rfl
    · rw [literal_eq]
      simp [Draft.of, Draft.Action.operation, Config.perform, Site.config, Config.advance,
        Word.wrap_eq_self (Word.isWord_wrap _)]
  | name name location =>
    rw [Expr.ofTree_name, Expr.findings, Scope.variableFindings_eq_nil] at hfindings
    obtain ⟨place, hplace⟩ := Option.isSome_iff_exists.mp hfindings
    rw [Expr.ofTree_name, Expr.code, hplace] at hhas ⊢
    have hload : (Draft.load place ("load " ++ shownName name)).action = .fixed (loadOf place) := by
      cases place <;> rfl
    refine Pushes.of_perform hhas fun s temps => ⟨s.value (Γ.denoted name), s, ?_, ?_⟩
    · rw [evaluate]
      rfl
    · rw [hload]
      exact (hstands.agrees.keeping hplace).perform_load
  | negate operand location hoperand ih =>
    rw [Expr.ofTree_negate, Expr.findings] at hfindings
    rw [Expr.ofTree_negate, Expr.code, Program.has_append] at hhas
    rw [Expr.ofTree_negate, Expr.code, List.length_append]
    intro s temps
    rw [evaluate]
    refine (ih hfindings hhas.1 s temps).bind fun v s₁ _ => ?_
    have hstep : (site.config w.globals (pc + ((Expr.ofTree operand).code σ).length) s₁
        (v :: temps)).step w.arity w.program = _ := Config.step_of_has w.arity hhas.2
    refine Simulates.of_step (hstep.trans ?_) rfl
    simp [Config.perform, Draft.bare, Draft.Action.operation, Site.config, Config.advance,
      Nat.add_assoc]
  | operator kind op left right location _ htakes _ _ ihl ihr =>
    rw [Expr.ofTree_operatorNode left right location htakes, Expr.findings,
      List.append_eq_nil_iff] at hfindings
    rw [Expr.ofTree_operatorNode left right location htakes, Expr.code, Program.has_append,
      Program.has_append, List.length_append, ← Nat.add_assoc] at hhas
    rw [Expr.ofTree_operatorNode left right location htakes, Expr.code, List.length_append,
      List.length_append]
    exact Pushes.operator htakes (ihl hfindings.1 hhas.1.1) (ihr hfindings.2 hhas.1.2) hhas.2
  | call name arguments location _ ih =>
    rw [Expr.ofTree_call, Expr.findings_call, Scope.AdmitsCall, List.length_map] at hfindings
    obtain ⟨hnone, hadmits⟩ := hfindings
    have hpushes (t : Tree) (ht : t ∈ arguments) (pc : Nat)
        (hhas : w.program.Has w.entries pc ((Expr.ofTree t).code σ)) :
        Pushes w k site pc ((Expr.ofTree t).code σ).length (evaluate call Γ t) :=
      ih t ht (hnone _ (List.mem_map_of_mem ht)) hhas
    rw [Expr.ofTree_call, Expr.code] at hhas ⊢
    by_cases hprints : σ.prints (some name) = true
    · rw [if_pos hprints] at hadmits
      rw [if_pos hprints, if_pos (by rw [List.length_map, hadmits])] at hhas ⊢
      rw [Program.has_append] at hhas
      rw [Scope.prints, Bool.and_eq_true, decide_eq_true_iff, Option.some.injEq] at hprints
      obtain ⟨rfl, hprint⟩ := hprints
      obtain ⟨argument, rfl⟩ := List.length_eq_one_iff.mp hadmits
      rw [List.length_append]
      exact Pushes.call_print hw hcall hstands.signatures hprint
        (PushesAll.of_forall hpushes hhas.1) hhas.2
    · rw [if_neg hprints] at hadmits hhas ⊢
      rw [Program.has_append] at hhas
      obtain ⟨f, hf, hcount⟩ := hadmits
      rw [List.length_append]
      exact Pushes.call_user hw hcall hstands.signatures hf hcount
        (PushesAll.of_forall hpushes hhas.1) hhas.2

theorem pushes_condition {t : Tree} (ht : t.IsCondition) (hw : w.Sound) (hcall : CallsRun w k call)
    (hstands : Stands w site Γ σ)
    (hfindings : (Expr.ofTree t).findings σ = [])
    (hhas : w.program.Has w.entries pc ((Expr.ofTree t).code σ)) :
    Pushes w k site pc ((Expr.ofTree t).code σ).length (evaluate call Γ t) := by
  cases ht with
  | mk op left right location htakes hleft hright =>
    rw [Expr.ofTree_operatorNode left right location htakes, Expr.findings,
      List.append_eq_nil_iff] at hfindings
    rw [Expr.ofTree_operatorNode left right location htakes, Expr.code, Program.has_append,
      Program.has_append, List.length_append, ← Nat.add_assoc] at hhas
    rw [Expr.ofTree_operatorNode left right location htakes, Expr.code, List.length_append,
      List.length_append]
    exact Pushes.operator htakes
      (pushes_evaluate hleft hw hcall hstands hfindings.1 hhas.1.1)
      (pushes_evaluate hright hw hcall hstands hfindings.2 hhas.1.2) hhas.2

end Values

end StackLang.Simulation
