import StackLang.Proofs.CallGraph
import StackLang.Proofs.Discipline.Halting

/-!
# Programs without loops and recursion come to an end

A program pays for its steps if every address has an allowance that each instruction spends from: it
leaves less at the addresses that it leads to, and a call leaves enough for the function and for
what comes behind it. A machine that runs such a program can still spend the allowance of where it
stands and of the addresses that it has to return to, and every step takes something of it. Code
that only goes forward and calls no function from within itself pays for its steps.
-/

namespace StackLang

open Simulation (Clean)
open StackLang.Tree (Parts)

/-! ## Programs that pay for their steps -/

/-- An operation at an address spends from its allowance. A call has to leave what its callee
needs, whose entry is in the table of functions. -/
def Operation.Pays (functions : List (String × Nat)) (allowance : Nat → Nat) (address : Nat) :
    Operation → Prop
  | .jump target => ∀ b : Nat, target = b → allowance b < allowance address
  | .jumpIfZero target | .jumpIfNonzero target =>
    (∀ b : Nat, target = b → allowance b < allowance address) ∧
      allowance (address + 1) < allowance address
  | .call target => ∀ f ∈ functions, target = f.2 →
    allowance f.2 + allowance (address + 1) < allowance address
  | .giveBack _ => 0 < allowance address
  | .halt => True
  | _ => allowance (address + 1) < allowance address

/-- Every instruction of a program spends from the allowance of its address. -/
def Program.Pays (p : Program) (allowance : Nat → Nat) : Prop :=
  ∀ (address : Nat) i, p.code[address]? = some i → i.operation.Pays p.functions allowance address

namespace Discipline

open Machine

variable {At : Nat → Point → Prop} {g n : Nat} {m m₁ : Machine} {ws ws₁ : List Int}
  {fs fs₁ : List Frame} {p : Program} {allowance : Nat → Nat}

/-- What a machine can still spend. -/
def budget (allowance : Nat → Nat) (m : Machine) (fs : List Frame) : Nat :=
  allowance m.pc.toNat + (fs.map fun f => allowance f.returnTo).sum

/-- Functions are entered where the table of functions has them. -/
def Tabled (p : Program) (At : Nat → Point → Prop) : Prop :=
  ∀ entry parameters locals, At entry (.entrance parameters locals) →
    ∃ f ∈ p.functions, f.2 = entry

/-- What an operation does to the frames and where it leads take something of the budget. -/
theorem budget_lt_of_pays {op : Operation} {address address₁ : Nat} (htabled : Tabled p At)
    (hpays : op.Pays p.functions allowance address) (hhalt : op ≠ .halt) (hpc : m.pc = address)
    (hpc₁ : m₁.pc = address₁) (hleads : LeadsTo op m m₁)
    (hturns : Turns At op m ws fs m₁ ws₁ fs₁) :
    budget allowance m₁ fs₁ < budget allowance m fs := by
  rw [budget, budget, hpc, hpc₁, Int.toNat_natCast, Int.toNat_natCast]
  have hnext (hleads : m₁.pc = m.pc + 1) (hpays : allowance (address + 1) < allowance address) :
      allowance address₁ < allowance address := by
    obtain rfl : address₁ = address + 1 := by omega
    exact hpays
  have hbranch {target : Int}
      (hpays : (∀ b : Nat, target = b → allowance b < allowance address) ∧
        allowance (address + 1) < allowance address)
      (hleads : m₁.pc = target ∨ m₁.pc = m.pc + 1) : allowance address₁ < allowance address := by
    rcases hleads with hleads | hleads
    · exact hpays.1 address₁ (hleads.symm.trans hpc₁)
    · exact hnext hleads hpays.2
  cases op with
  | halt => exact absurd rfl hhalt
  | jump target =>
    obtain rfl : fs₁ = fs := hturns
    exact Nat.add_lt_add_right (hpays address₁ (hleads.symm.trans hpc₁)) _
  | jumpIfZero target =>
    obtain rfl : fs₁ = fs := hturns
    exact Nat.add_lt_add_right (hbranch hpays hleads) _
  | jumpIfNonzero target =>
    obtain rfl : fs₁ = fs := hturns
    exact Nat.add_lt_add_right (hbranch hpays hleads) _
  | call target =>
    obtain ⟨-, f, rfl, -, hreturn, entry, rfl, hentrance⟩ := hturns
    obtain ⟨e, he, rfl⟩ := htabled _ _ _ hentrance
    have hspent := hpays e he rfl
    obtain rfl : address₁ = e.2 := Int.ofNat_inj.mp (hpc₁.symm.trans hleads)
    have hbehind : f.returnTo = address + 1 := by omega
    -- what the call leaves for later is the allowance of the address to return to
    rw [List.map_cons, List.sum_cons, hbehind]
    omega
  | giveBack count =>
    obtain ⟨f, rfl, -, hreturn, -⟩ := hturns
    obtain rfl : address₁ = f.returnTo := Int.ofNat_inj.mp (hpc₁.symm.trans hreturn)
    have hspent : 0 < allowance address := hpays
    rw [List.map_cons, List.sum_cons]
    omega
  | _ =>
    obtain rfl : fs₁ = fs := hturns
    exact Nat.add_lt_add_right (hnext hleads hpays) _

/-- Every step of a machine that goes on takes something of its budget. -/
theorem Upright.budget_lt (hp : Disciplined p g At) (htabled : Tabled p At)
    (hpays : p.Pays allowance) (h : Upright At g p m ws fs) (hstep : Machine.step m = .ok () m₁)
    (hrunning : m₁.running = true) :
    m.running = true ∧
      ∃ ws₁ fs₁, Upright At g p m₁ ws₁ fs₁ ∧ budget allowance m₁ fs₁ < budget allowance m fs := by
  obtain ⟨i, ws₁, fs₁, hi, hadvances, hupright⟩ := h.step hp hstep
  have hkept := hadvances.running
  have hhalt : i.operation ≠ .halt := by
    intro hhalt
    rw [if_pos hhalt, hrunning] at hkept
    cases hkept
  rw [if_neg hhalt, hrunning] at hkept
  obtain ⟨address, hpc, -⟩ := h.stands
  obtain ⟨address₁, hpc₁, -⟩ := hupright.stands
  have hcode : p.code[address]? = some i := by
    rw [← h.program, ← current?_of_pc hpc, hi]
  obtain ⟨hbounded, hrange⟩ := h.bounded
  have hsteered := hbounded.steered_step hrange hi
  rw [hstep] at hsteered
  exact ⟨hkept.symm, ws₁, fs₁, hupright, budget_lt_of_pays htabled (hpays address i hcode) hhalt hpc
    hpc₁ hsteered.2 hadvances.turns⟩

theorem pc_of_load (hload : loadProgram p m = .ok () m₁) : m₁.pc = 0 := by
  unfold loadProgram at hload
  split at hload
  · cases hload
  · cases hload
    rfl

/-- A machine that is still running has taken one step for each unit it has spent. -/
theorem Disciplined.add_budget_le (hp : Disciplined p g At) (htabled : Tabled p At)
    (hpays : p.Pays allowance) (htrial : trial p n m = .ok () m₁) (hrunning : m₁.running = true) :
    ∃ ws fs, Upright At g p m₁ ws fs ∧ n + budget allowance m₁ fs ≤ allowance 0 := by
  induction n generalizing m₁ with
  | zero =>
    cases hload : loadProgram p m with
    | error e m₀ =>
      rw [trial_of_load_error hload] at htrial
      cases htrial
    | ok u m₀ =>
      rw [trial_of_load_ok hload] at htrial
      cases htrial
      refine ⟨_, [], (hp.upright_load hload).1, ?_⟩
      rw [budget, pc_of_load hload, Nat.zero_add]
      exact Nat.le_refl _
  | succ n ih =>
    cases hn : trial p n m with
    | error e m' =>
      rw [trial_add_of_error hn] at htrial
      cases htrial
    | ok u m' =>
      rw [trial_add_of_ok hn, stepMany_one] at htrial
      -- a machine that runs after a step has run before it
      obtain ⟨ws, fs, hupright⟩ := hp.upright_trial hn
      obtain ⟨hrunning', -⟩ := hupright.budget_lt hp htabled hpays htrial hrunning
      obtain ⟨ws, fs, hupright, hle⟩ := ih hn hrunning'
      obtain ⟨-, ws₁, fs₁, hupright₁, hlt⟩ := hupright.budget_lt hp htabled hpays htrial hrunning
      exact ⟨ws₁, fs₁, hupright₁, by omega⟩

/-- A machine that has stopped running is at the end of the run. -/
theorem Disciplined.isHalting_of_stopped (hp : Disciplined p g At)
    (htrial : trial p n m = .ok () m₁) (hstopped : m₁.running = false) : m₁.IsHalting := by
  refine (trial_induction (I := fun m => (∃ ws fs, Upright At g p m ws fs) ∧
      (m.running = false → m.IsHalting)) ?_ ?_ htrial).2 hstopped
  · intro m₀ hload
    refine ⟨⟨_, _, (hp.upright_load hload).1⟩, fun hstopped => ?_⟩
    rcases hp.goes_load m with ⟨f, m', hm'⟩ | ⟨m', hm', -, -, -, hrunning⟩
    · rw [hload] at hm'
      cases hm'
    · rw [hload] at hm'
      cases hm'
      rw [hrunning] at hstopped
      cases hstopped
  · rintro m₁ m₂ ⟨⟨ws, fs, hupright⟩, hhalting⟩ hstep
    obtain ⟨i, ws₁, fs₁, hi, hadvances, hupright₁⟩ := hupright.step hp hstep
    refine ⟨⟨ws₁, fs₁, hupright₁⟩, fun hstopped => ?_⟩
    by_cases hhalt : i.operation = .halt
    · exact (IsHalting.step ⟨i, hi, hhalt⟩ hstep).1
    · have hkept := hadvances.running
      rw [if_neg hhalt, hstopped] at hkept
      exact ((hhalting hkept.symm).step hstep).1

/-- A program that pays for its steps has come to its end when all is spent. -/
theorem Disciplined.fault_or_halts (hp : Disciplined p g At) (htabled : Tabled p At)
    (hpays : p.Pays allowance) (m : Machine) :
    (∃ f m', trial p (allowance 0 + 1) m = .error (.fault f) m') ∨
      ∃ m', trial p (allowance 0 + 1) m = .ok () m' ∧ m'.running = false ∧ m'.IsHalting := by
  rcases hp.goes_trial m (allowance 0 + 1) with hfault | ⟨m', ws, fs, hm', -⟩
  · exact .inl hfault
  · have hstopped : m'.running = false := by
      rw [← Bool.not_eq_true]
      intro hrunning
      obtain ⟨ws, fs, -, hle⟩ := hp.add_budget_le htabled hpays hm' hrunning
      omega
    exact .inr ⟨m', hm', hstopped, hp.isHalting_of_stopped hm' hstopped⟩

end Discipline

/-! ## The allowance of code that goes forward -/

namespace Draft

/-- The steps that an action takes, if its callee takes so many. -/
def Action.price (cost : String → Nat) : Action → Nat
  | .call callee _ => 1 + cost callee
  | _ => 1

/-- The most steps that drafted code takes if it goes forward. -/
def price (cost : String → Nat) (ds : List Draft) : Nat := (ds.map (·.action.price cost)).sum

/-- The price of the rest of the piece in which an address is. -/
def priceFrom (cost : String → Nat) : List (List Draft) → Nat → Nat
  | [], _ => 0
  | piece :: pieces, address =>
    if address < piece.length then price cost (piece.drop address)
    else priceFrom cost pieces (address - piece.length)

variable {cost cost' : String → Nat} {d : Draft} {ds piece : List Draft}
  {before after : List (List Draft)} {j k : Nat}

theorem Action.price_pos (cost : String → Nat) (action : Action) : 0 < action.price cost := by
  cases action with
  | call callee missing => exact Nat.add_pos_left Nat.one_pos _
  | _ => exact Nat.one_pos

theorem price_congr {calls : String → Prop} (h : GoForward calls ds)
    (hcost : ∀ callee, calls callee → cost callee = cost' callee) :
    price cost ds = price cost' ds := by
  refine congrArg List.sum (List.map_congr_left fun d hd => ?_)
  have hforward := h d hd
  cases haction : d.action with
  | call callee missing =>
    rw [haction] at hforward
    exact congrArg (1 + ·) (hcost callee hforward)
  | _ => rfl

theorem price_drop (h : ds[k]? = some d) :
    price cost (ds.drop k) = d.action.price cost + price cost (ds.drop (k + 1)) := by
  obtain ⟨hk, rfl⟩ := List.getElem?_eq_some_iff.mp h
  rw [List.drop_eq_getElem_cons hk, price, List.map_cons, List.sum_cons, price]

theorem price_drop_le (h : j ≤ k) : price cost (ds.drop k) ≤ price cost (ds.drop j) := by
  obtain ⟨i, rfl⟩ := Nat.exists_eq_add_of_le h
  have hsplit := List.take_append_drop i (ds.drop j)
  rw [List.drop_drop] at hsplit
  rw [← hsplit, price, price, List.map_append, List.sum_append]
  exact Nat.le_add_left _ _

theorem priceFrom_piece (hk : k < piece.length) :
    priceFrom cost (before ++ piece :: after) (before.flatten.length + k) =
      price cost (piece.drop k) := by
  induction before with
  | nil => simp [priceFrom, hk]
  | cons first before ih =>
    have hle : ¬(first :: before).flatten.length + k < first.length := by
      rw [List.flatten_cons, List.length_append]
      omega
    have hrest : (first :: before).flatten.length + k - first.length =
        before.flatten.length + k := by
      rw [List.flatten_cons, List.length_append]
      omega
    rw [List.cons_append, priceFrom, if_neg hle, hrest, ih]

/-- An action pays for its step if what is left behind it is the allowance of where it leads. -/
theorem pays_operation {entries : List (String × Nat)} {allowance : Nat → Nat} {address rest : Nat}
    (hsettled : d.action.IsSettled) (hpositive : ∀ f ∈ entries, 0 < f.2)
    (hhere : allowance address = d.action.price cost + rest)
    (hnext : ¬d.IsFinal → allowance (address + 1) = rest)
    (hjumps : ∀ distance, d.Jumps distance → ∀ b : Nat, (address : Int) + distance = b →
      allowance b ≤ rest)
    (hcalls : ∀ callee missing entry, d.action = .call callee missing →
      entries.lookup callee = some entry → allowance entry = cost callee) :
    (d.action.operation entries address).Pays entries allowance address := by
  have hmissing {target : Int} (htarget : target ≤ 0) {f : String × Nat} (hf : f ∈ entries)
      (heq : target = f.2) : False := by
    have hpos := hpositive f hf
    omega
  have hlt : rest < allowance address := by
    have hpos := d.action.price_pos cost
    omega
  have hgoes (hfinal : ¬d.IsFinal) : allowance (address + 1) < allowance address := by
    rw [hnext hfinal]
    exact hlt
  cases haction : d.action with
  | fixed op =>
    rw [haction] at hsettled
    rw [IsFinal, haction] at hgoes
    cases op with
    | jump target => exact hsettled.elim
    | jumpIfZero target => exact hsettled.elim
    | jumpIfNonzero target => exact hsettled.elim
    | call target => exact fun f hf heq => (hmissing (Int.le_of_eq hsettled) hf heq).elim
    | giveBack count => exact Nat.zero_lt_of_lt hlt
    | halt => trivial
    | _ => exact hgoes (by simp)
  | jump distance => exact fun b hb => Nat.lt_of_le_of_lt (hjumps distance (.inl haction) b hb) hlt
  | jumpIfZero distance =>
    refine ⟨fun b hb => ?_, hgoes (by simp [IsFinal, haction])⟩
    exact Nat.lt_of_le_of_lt (hjumps distance (.inr haction) b hb) hlt
  | call callee missing =>
    intro f hf heq
    have hfinal : ¬d.IsFinal := by simp [IsFinal, haction]
    rw [haction] at hsettled
    rw [haction, Action.price] at hhere
    cases hlookup : entries.lookup callee with
    | none =>
      rw [hlookup] at heq
      exact (hmissing hsettled hf heq).elim
    | some entry =>
      rw [hlookup] at heq
      obtain rfl : entry = f.2 := Int.ofNat_inj.mp heq
      rw [hnext hfinal, hcalls callee missing f.2 haction hlookup]
      omega

end Draft

open Draft (GoForward price priceFrom)

namespace Simulation.Clean

variable {tree : Tree} {statements : List Tree} {fs : List Parts} {s : Script}
  {cost : String → Nat}

/-- Without loops and recursion every function takes a number of steps that depends on its callees
only. -/
theorem exists_cost (h : Clean tree statements fs s) (hloops : tree.IsLoopFree)
    (hacyclic : tree.IsAcyclic) :
    ∃ cost, ∀ f ∈ fs, cost f.name = price cost (f.definition.code s.functionScope) := by
  let priceOf (cost : String → Nat) (name : String) : Nat :=
    ((fs.find? (·.name = name)).map fun f =>
      price cost (f.definition.code s.functionScope)).getD 0
  -- the price of a function depends on the costs of what it calls, which comes before it
  obtain ⟨cost, hcost⟩ : ∃ cost, ∀ name, cost name = priceOf cost name := by
    refine exists_eq_of_wellFounded hacyclic.wellFounded fun name cost cost' hbelow => ?_
    cases hfind : fs.find? (·.name = name) with
    | none => simp only [priceOf, hfind, Option.map_none]
    | some f =>
      have hname : f.name = name := by simpa using List.find?_some hfind
      have hforward := h.goForward_definition hloops (List.mem_of_find?_eq_some hfind)
        s.functionScope
      rw [hname] at hforward
      simp only [priceOf, hfind, Option.map_some, Option.getD_some]
      exact Draft.price_congr hforward hbelow
  refine ⟨cost, fun f hf => ?_⟩
  rw [hcost]
  simp only [priceOf, find?_name_of_nodup h.nodup_names hf, Option.map_some, Option.getD_some]

/-- A function is entered with the allowance for its whole code. -/
theorem priceFrom_entry (h : Clean tree statements fs s)
    (hcost : ∀ f ∈ fs, cost f.name = price cost (f.definition.code s.functionScope))
    {callee : String} {entry : Nat} (hlookup : s.entries.lookup callee = some entry) :
    priceFrom cost s.pieces entry = cost callee := by
  obtain ⟨f, hf, rfl⟩ := Discipline.exists_of_lookup h hlookup
  obtain ⟨before, after, hsplit, rfl⟩ := h.exists_append hf hlookup
  have hlength : 0 < (f.definition.code s.functionScope).length := Nat.succ_pos _
  rw [hcost f hf, Script.pieces_eq hsplit, ← Script.length_flatten_pieces]
  exact Draft.priceFrom_piece hlength

theorem goForward_piece (h : Clean tree statements fs s) (hloops : tree.IsLoopFree)
    {piece : List Draft} (hpiece : piece ∈ s.pieces) : GoForward (fun _ => True) piece := by
  rcases List.mem_cons.mp hpiece with rfl | hpiece
  · exact h.goForward_entryCode hloops
  · obtain ⟨d, hd, rfl⟩ := List.mem_map.mp hpiece
    rw [h.definitions_eq] at hd
    obtain ⟨f, hf, rfl⟩ := List.mem_map.mp hd
    exact (h.goForward_definition hloops hf _).mono fun _ _ => trivial

/-- Code that goes forward pays for its steps. -/
theorem pays (h : Clean tree statements fs s) (comments : Bool) (hloops : tree.IsLoopFree)
    (hcost : ∀ f ∈ fs, cost f.name = price cost (f.definition.code s.functionScope)) :
    (s.program comments).Pays (priceFrom cost s.pieces) := by
  intro address i hi
  obtain ⟨before, piece, after, k, d, hsplit, rfl, hk, hoperation⟩ := Script.exists_piece hi
  have hpiece : piece ∈ s.pieces := by
    rw [hsplit]
    exact List.mem_append_right _ List.mem_cons_self
  have hclosed := Script.isClosed_of_mem_pieces hpiece
  have hd : d ∈ piece := List.mem_of_getElem? hk
  have hforward := h.goForward_piece hloops hpiece d hd
  have hat {j : Nat} (hj : j < piece.length) :
      priceFrom cost s.pieces (before.flatten.length + j) = price cost (piece.drop j) := by
    rw [hsplit]
    exact Draft.priceFrom_piece hj
  have hhere := hat (List.getElem?_eq_some_iff.mp hk).1
  rw [Draft.price_drop hk] at hhere
  rw [hoperation]
  refine Draft.pays_operation (hclosed.settled d hd) (fun e he => ?_) hhere ?_ ?_ ?_
  · have hle := Script.le_of_mem_entriesFrom he
    rw [Discipline.length_entryCode] at hle
    omega
  · intro hfinal
    rw [Nat.add_assoc]
    exact hat (hclosed.next k d hk hfinal)
  · -- a jump leads to a later address of the same piece
    intro distance hjumps b hb
    obtain ⟨target, htarget, hlt⟩ := hclosed.jumps k d distance hk hjumps
    have hpositive : 0 < distance := by
      rcases hjumps with haction | haction
      · rwa [haction] at hforward
      · rwa [haction] at hforward
    obtain rfl : b = before.flatten.length + target := by
      rw [Int.natCast_add] at hb
      omega
    rw [hat hlt]
    exact Draft.price_drop_le (by omega)
  · exact fun callee missing entry haction hlookup => h.priceFrom_entry hcost hlookup

end Simulation.Clean

theorem Discipline.tabled_program {fs : List Parts} {s : Script} (comments : Bool) :
    Tabled (s.program comments) (PointOf fs s) := by
  intro entry parameters locals hpoint
  cases hpoint with
  | @entrance f _ hf hlookup =>
    obtain ⟨front, back, hsplit, -⟩ := List.lookup_eq_some_iff.mp hlookup
    refine ⟨(f.name, entry), ?_, rfl⟩
    change _ ∈ s.entries
    rw [hsplit]
    exact List.mem_append_right _ List.mem_cons_self

/-- A program without loops in which no function calls itself, directly or through others, comes to
its end on every machine, whatever the size of its stack: a number of steps that depends on the
program only leads to a fault or to the end of the run. -/
theorem loop_free_terminates {options : CompileOptions} {file source : String} {tree : Tree}
    {compiled : Compiled} (h : Accepted options file source tree compiled)
    (hloops : tree.IsLoopFree) (hacyclic : tree.IsAcyclic) :
    ∃ bound, ∀ m : Machine,
      ((∃ f m', Machine.trial compiled.program bound m = .error (.fault f) m') ∨
        ∃ m', Machine.trial compiled.program bound m = .ok () m' ∧ m'.running = false ∧
          m'.IsHalting) ∧
      ((∃ category, Faults m compiled.program category fun _ => True) ∨
        ∃ v lines, Finishes m compiled.program v lines) := by
  obtain ⟨statements, fs, s, hclean, hprogram⟩ := h.exists_clean
  obtain ⟨cost, hcost⟩ := hclean.exists_cost hloops hacyclic
  have hp := Discipline.disciplined_program hclean options.comments
  have hends := hp.fault_or_halts (Discipline.tabled_program options.comments)
    (hclean.pays options.comments hloops hcost)
  rw [hprogram]
  refine ⟨_, fun m => ⟨hends m, ?_⟩⟩
  cases hp.outcome m with
  | result v lines hword hfinishes => exact .inr ⟨v, lines, hfinishes⟩
  | fault category hfaults => exact .inl ⟨category, hfaults⟩
  | endless hendless =>
    obtain ⟨lines, m', hm', hactive, -⟩ := hendless (priceFrom cost s.pieces 0 + 1)
    rcases hends m with ⟨f, m₁, hm₁⟩ | ⟨m₁, hm₁, hstopped, -⟩
    · rw [hm'] at hm₁
      cases hm₁
    · rw [hm'] at hm₁
      cases hm₁
      simp [Machine.isActive, hstopped] at hactive

/-- A program in which a function calls another one, and the first function calls both. -/
def sharing : String :=
  "fn f(n: int) -> int \x7b if (n < 3) \x7b return 1 \x7d return n / 3 \x7d " ++
    "fn main() -> int \x7b return g(9) / f(3) \x7d fn g(n: int) -> int \x7b return f(n) \x7d"

theorem loop_free_terminates_sharing :
    ∃ tree compiled, Accepted {} "sharing" sharing tree compiled ∧ tree.IsLoopFree ∧
      tree.IsAcyclic ∧ tree.Calls "main" "g" ∧ tree.Calls "g" "f" ∧
      ∃ bound, ∀ m : Machine,
        ((∃ f m', Machine.trial compiled.program bound m = .error (.fault f) m') ∨
          ∃ m', Machine.trial compiled.program bound m = .ok () m' ∧ m'.running = false ∧
            m'.IsHalting) ∧
        ((∃ category, Faults m compiled.program category fun _ => True) ∨
          ∃ v lines, Finishes m compiled.program v lines) := by
  have hcheck : ((Source.tree "sharing" sharing).toOption.bind fun t =>
      (Script.ofTree? t).map fun s => decide (s.findings.isEmpty = true ∧ t.IsLoopFree ∧
        (∀ f ∈ t.childrenOf .function, ∀ n ∈ f.walk, n.kind = .functionCall →
          [some "f", some "g", some "main"].idxOf (n.get? "name") <
            [some "f", some "g", some "main"].idxOf (f.get? "name")) ∧
        t.Calls "main" "g" ∧ t.Calls "g" "f")) = some true := by
    decide +kernel
  cases htree : Source.tree "sharing" sharing with
  | error d =>
    rw [htree] at hcheck
    cases hcheck
  | ok tree =>
    rw [htree, Except.toOption, Option.bind_some] at hcheck
    obtain ⟨s, hs, hdecided⟩ := Option.map_eq_some_iff.mp hcheck
    obtain ⟨hfindings, hloops, hrank, hmain, hg⟩ := of_decide_eq_true hdecided
    obtain ⟨compiled, haccepted⟩ :=
      Accepted.exists_of_findings {} htree hs (List.isEmpty_iff.mp hfindings)
    have hacyclic : tree.IsAcyclic :=
      Tree.isAcyclic_of_rank (fun name => [some "f", some "g", some "main"].idxOf name) hrank
    exact ⟨tree, compiled, haccepted, hloops, hacyclic, hmain, hg,
      loop_free_terminates haccepted hloops hacyclic⟩

end StackLang
