import StackLang.Proofs.Discipline.Calls
import StackLang.Proofs.Discipline.Halting

/-!
# Arguments passed and dropped

Each call of a function in the source pushes as many words as every return of that function drops.
The first call, which no expression of the source makes, pushes none, and the first function may
well take parameters. What the run leaves at its end depends on how many there are: each of them
costs a global variable.
-/

namespace StackLang

open StackLang.Tree (Parts)
open Simulation (Clean arityAt)

/-- All returns in the code of the function with an entry, which goes up to the next entry, drop
`count` words. -/
def Program.Drops (p : Program) (entry count : Nat) : Prop :=
  ∀ (address : Nat) (i : Instruction) (operand : Int), entry ≤ address →
    (∀ e ∈ p.functions, e.2 ≤ entry ∨ address < e.2) → p.code[address]? = some i →
    i.operation = .giveBack operand → operand = count

namespace Discipline

variable {tree : Tree} {statements : List Tree} {fs : List Parts} {s : Script} {f : Parts}
  {c : CallSite} {address entry : Nat}

/-! ## Words pushed -/

open Machine

variable {At : Nat → Point → Prop} {g : Nat} {arity : String → Nat} {r : Region}
  {m m₁ m₂ : Machine} {ws : List Int} {p : Program} {n : Nat}

/-- The words above the variables begin where the frame and its region say. -/
theorem floor_eq {es gs : List Frame} (hregion : region es = region gs)
    (hbase : base es = base gs) : floor g es = floor g gs := by
  cases es with
  | nil =>
    cases gs with
    | nil => rfl
    | cons f gs => cases hregion
  | cons e es =>
    cases gs with
    | nil => cases hregion
    | cons f gs =>
      simp only [region, Region.inside.injEq] at hregion
      rw [floor, floor, hregion.2]
      exact congrArg (· + f.locals) hbase

/-- From where the arguments of a call site are begun up to the call, their number is added to the
words there are. -/
theorem exists_points_of_prepared {ds : List Draft} {entries : List (String × Nat)}
    (h : c.Prepared arity address ds) (hcovers : Covers At arity r address 0 ds)
    (hhas : p.Has entries address ds) :
    ∃ start σ es depth, p.Has entries start (Expr.codeAll σ es) ∧
      c.address = start + (Expr.codeAll σ es).length ∧ es.length = c.arguments ∧
      At start (.within r depth) ∧ At c.address (.within r (depth + c.arguments)) := by
  obtain ⟨before, σ, es, d, after, rfl, hcount, heffect, haddress⟩ := h
  obtain ⟨-, hcovers⟩ := hcovers.append
  obtain ⟨hcovers, -⟩ := hcovers.append
  have hlast := hcovers.last
  rw [heffect, ← haddress] at hlast
  exact ⟨_, σ, es, _, (Program.has_append.mp (Program.has_append.mp hhas).2).1, haddress, hcount,
    hcovers.first, hlast⟩

/-- A machine at a point has the words of the point above the variables of its region. -/
theorem InOrder.length_eq_of_point (h : Clean tree statements fs s) {gs : List Frame} {d : Int}
    (horder : InOrder (PointOf fs s) g m ws gs) (hpc : m.pc = address)
    (hpoint : PointOf fs s address (.within r d)) :
    region gs = r ∧ (ws.length : Int) = floor g gs + d := by
  obtain ⟨address', haddress, hstands⟩ := horder.stands
  obtain rfl : address' = address := by omega
  cases hstands with
  | within point depth_nonneg length_eq =>
    have heq := point.unique h hpoint
    simp only [Point.within.injEq] at heq
    exact ⟨heq.1, by rw [length_eq, heq.2]⟩
  | entrance point length_eq => cases point.unique h hpoint
  | exit point hsome => cases point.unique h hpoint

/-- Machines at two points of a region in the same frame differ by the words of the points. -/
theorem InOrder.sp_eq (h : Clean tree statements fs s) {es gs : List Frame} {us : List Int}
    {a b : Nat} {d n : Int} (horder : InOrder (PointOf fs s) g m₁ ws es)
    (horder' : InOrder (PointOf fs s) g m₂ us gs) (hpc : m₁.pc = a) (hpc' : m₂.pc = b)
    (hpoint : PointOf fs s a (.within r d)) (hpoint' : PointOf fs s b (.within r (d + n)))
    (hfp : m₂.fp = m₁.fp) : m₂.sp = m₁.sp + n := by
  obtain ⟨hregion, hlength⟩ := horder.length_eq_of_point h hpc hpoint
  obtain ⟨hregion', hlength'⟩ := horder'.length_eq_of_point h hpc' hpoint'
  have hbase : base gs = base es := by
    have hes := horder.fp
    have hgs := horder'.fp
    omega
  have hfloor := floor_eq (g := g) (hregion'.trans hregion.symm) hbase
  have hsp := horder.holds.sp
  have hsp' := horder'.holds.sp
  omega

/-! ## Words dropped -/

/-- Every return of a function drops as many words as the function has parameters. -/
theorem drops_of_mem (h : Clean tree statements fs s) (comments : Bool) (hf : f ∈ fs)
    (hentry : s.entries.lookup f.name = some entry) :
    (s.program comments).Drops entry f.parameters.length := by
  intro address i count hle hnext hi hreturn
  have hlt : address < s.code.length := by
    rw [← s.size_program comments]
    exact (Array.getElem?_eq_some_iff.mp hi).1
  obtain ⟨entry', hentry', -, hlt'⟩ := h.inFunction_of_next hf hentry hle hnext hlt
  obtain rfl : entry = entry' := Option.some.inj (hentry.symm.trans hentry')
  obtain ⟨⟨j, hj, henter⟩, -⟩ := has_function h comments hf hentry
  rw [length_code] at hlt'
  by_cases hfirst : address = entry
  · rw [← hfirst, hi, Option.some.injEq] at hj
    rw [hj, henter] at hreturn
    cases hreturn
  obtain ⟨k, rfl⟩ : ∃ k, address = entry + 1 + k := ⟨address - entry - 1, by omega⟩
  have hpoint := PointOf.inside (s := s) hf hentry (k := k) (by omega)
  obtain ⟨i', hi', hobeys⟩ := (disciplined_program h comments).obeys _ _ hpoint
  rw [hi, Option.some.injEq] at hi'
  rw [← hi', hreturn, regionOf] at hobeys
  cases hobeys with
  | giveBack enough => rfl

end Discipline

/-! ## Whole programs -/

/-- How many arguments the first function takes. -/
def firstArity (tree : Tree) : Nat :=
  ((Meaning.functionNamed? tree entryName).map fun g => (Meaning.parameterNames g).length).getD 0

/-- The code from `start` on up to the call of a call site computes one expression for each of its
arguments. -/
def CallSite.PreparedFrom (c : CallSite) (p : Program) (start : Nat) : Prop :=
  ∃ σ es, p.Has p.functions start (Expr.codeAll σ es) ∧
    c.address = start + (Expr.codeAll σ es).length ∧ es.length = c.arguments

/-- Whenever a machine comes to two addresses in one and the same frame, there are `count` more
words at the second one. -/
def Program.Pushes (p : Program) (start address count : Nat) : Prop :=
  ∀ (m m₁ m₂ : Machine) (n₁ n₂ : Nat), Machine.trial p n₁ m = .ok () m₁ →
    Machine.trial p n₂ m = .ok () m₂ → m₁.pc = start → m₂.pc = address → m₂.fp = m₁.fp →
    m₂.sp = m₁.sp + count

/-- What a program does with the arguments of its calls, if its first function takes `first` of
them. -/
structure Program.SettlesArguments (p : Program) (s : Script) (first : Nat) : Prop where
  /-- A call passes what the returns of its function drop, unless it is the first call. That one
  stands right before the end of the run and passes nothing. -/
  calls : ∀ (address : Nat) (i : Instruction) (name : String) (entry : Nat),
    p.code[address]? = some i → i.operation = .call entry →
    p.functions.lookup name = some entry →
    (∃ c ∈ s.callSites, c.address = address ∧ c.callee = name ∧
      (∃ start, c.PreparedFrom p start ∧ p.Pushes start address c.arguments) ∧
      p.Drops entry c.arguments) ∨
    (name = entryName ∧ (∃ j, p.code[address + 1]? = some j ∧ j.operation = .halt) ∧
      (∀ (m m' : Machine) (n : Nat), Machine.trial p n m = .ok () m' → m'.pc = address →
        m'.sp = p.globals) ∧ p.Drops entry first)
  /-- At the end of a run the value stands behind the global variables that are left. -/
  ends : ∀ (m m' : Machine) (n : Nat), Machine.trial p n m = .ok () m' → m'.IsHalting →
    m'.fp = 0 ∧ m'.sp = p.globals - first + 1
  /-- The return from the first call does not touch the global variables that are left. -/
  keeps : ∀ (m m₁ m₂ : Machine) (n : Nat), Machine.trial p n m = .ok () m₁ →
    Machine.step m₁ = .ok () m₂ → ¬m₁.IsHalting → m₂.IsHalting →
    ∀ k : Nat, k < p.globals - first → m₂.word? k = m₁.word? k

section Clean

open Discipline

variable {tree : Tree} {statements : List Tree} {fs : List Parts} {s : Script} {f : Parts}
  {address entry : Nat}

/-- The first function takes what its parameters are. -/
theorem firstArity_eq (h : Clean tree statements fs s) (hf : f ∈ fs) (hname : f.name = entryName) :
    firstArity tree = f.parameters.length := by
  have hnamed : Meaning.functionNamed? tree entryName = some f.tree := by
    rw [h.functionNamed?, ← hname]
    exact congrArg (Option.map Parts.tree) (find?_name_of_nodup h.nodup_names hf)
  rw [firstArity, hnamed, Option.map_some, Option.getD_some, Parts.parameterNames_tree]

/-- Different functions have different entries. -/
theorem name_eq_of_lookup (h : Clean tree statements fs s) {name name' : String}
    (hlookup : s.entries.lookup name = some entry)
    (hlookup' : s.entries.lookup name' = some entry) : name = name' := by
  obtain ⟨f, hf, rfl⟩ := exists_of_lookup h hlookup
  obtain ⟨g, hg, rfl⟩ := exists_of_lookup h hlookup'
  have hin {f : Parts} (hf : s.entries.lookup f.name = some entry) : s.InFunction f entry :=
    ⟨entry, hf, le_rfl, by rw [length_code]; omega⟩
  rw [h.eq_of_inFunction hf hg (hin hlookup) (hin hlookup')]

/-- The first call is that of the first function. -/
theorem lookup_entryName {comments : Bool} {i : Instruction}
    (hi : (s.program comments).code[(s.entry.code s.startScope).length]? = some i)
    (hcall : i.operation = .call entry) : s.entries.lookup entryName = some entry := by
  obtain ⟨-, ⟨j, hj, hfirst⟩, -⟩ := s.program_has_entry comments
  rw [hi, Option.some.injEq] at hj
  rw [← hj, hcall, Operation.call.injEq] at hfirst
  cases hlookup : s.entries.lookup entryName with
  | none =>
    rw [hlookup] at hfirst
    exact absurd hfirst (by simp)
  | some entry' =>
    rw [hlookup] at hfirst
    simpa using hfirst.symm

/-- The frame that returns to the end of the run is that of the first function. -/
theorem parameters_eq_firstArity (h : Clean tree statements fs s) (comments : Bool) {e : Frame}
    (hopened : e.Opened (s.program comments) (PointOf fs s))
    (hexit : PointOf fs s e.returnTo .exit) : e.parameters = firstArity tree := by
  obtain ⟨i, address, entry, hreturn, hi, hcall, hpoint⟩ := hopened
  have haddress := hexit.address_eq
  obtain rfl : address = (s.entry.code s.startScope).length := by
    rw [Simulation.haltAddress] at haddress
    omega
  have hlookup := lookup_entryName hi hcall
  obtain ⟨f, hf, hname⟩ := exists_of_lookup h hlookup
  rw [← hname] at hlookup
  obtain ⟨entry', hentry', harity, -⟩ := h.exists_entry comments hf
  obtain rfl : entry = entry' := Option.some.inj (hlookup.symm.trans hentry')
  rw [firstArity_eq h hf hname, ← harity]
  exact (hpoint.arityAt_eq h comments).symm

/-- A call at a call site passes what the function drops. -/
theorem passes_of_callSite (h : Clean tree statements fs s) (comments : Bool) {c : CallSite}
    (hc : c ∈ s.callSites) {name : String} {i : Instruction}
    (hi : (s.program comments).code[c.address]? = some i) (hcall : i.operation = .call entry)
    (hlookup : s.entries.lookup name = some entry) :
    c.callee = name ∧
      (∃ start, c.PreparedFrom (s.program comments) start ∧
        (s.program comments).Pushes start c.address c.arguments) ∧
      (s.program comments).Drops entry c.arguments := by
  have hp := disciplined_program h comments
  obtain ⟨i', entry', hi', hcall', hlookup', harity, -⟩ := Script.exists_call h comments hc
  rw [hi, Option.some.injEq] at hi'
  rw [← hi', hcall, Operation.call.injEq, Int.natCast_inj] at hcall'
  subst hcall'
  obtain ⟨f, hf, rfl⟩ := exists_of_lookup h hlookup
  obtain ⟨r, address, ds, hprepared, hcovers, hhas⟩ := exists_prepared h comments hc
  obtain ⟨start, σ, es, depth, hhas', haddress, hcount, hpoint, hpoint'⟩ :=
    exists_points_of_prepared hprepared hcovers hhas
  refine ⟨name_eq_of_lookup h hlookup' hlookup, ⟨start, ⟨σ, es, hhas', haddress, hcount⟩, ?_⟩, ?_⟩
  · intro m m₁ m₂ n₁ n₂ hm₁ hm₂ hpc₁ hpc₂ hfp
    obtain ⟨ws₁, fs₁, h₁⟩ := hp.upright_trial hm₁
    obtain ⟨ws₂, fs₂, h₂⟩ := hp.upright_trial hm₂
    exact h₁.toInOrder.sp_eq h h₂.toInOrder hpc₁ hpc₂ hpoint hpoint' hfp
  · obtain ⟨entry', hentry', harity', -⟩ := h.exists_entry comments hf
    obtain rfl : entry = entry' := Option.some.inj (hlookup.symm.trans hentry')
    rw [← harity, harity']
    exact drops_of_mem h comments hf hlookup

/-- The first call passes nothing. -/
theorem passes_of_firstCall (h : Clean tree statements fs s) (comments : Bool) {name : String}
    {i : Instruction}
    (hi : (s.program comments).code[(s.entry.code s.startScope).length]? = some i)
    (hcall : i.operation = .call entry) (hlookup : s.entries.lookup name = some entry) :
    name = entryName ∧
      (∀ (m m' : Machine) (n : Nat), Machine.trial (s.program comments) n m = .ok () m' →
        m'.pc = (s.entry.code s.startScope).length → m'.sp = (s.program comments).globals) ∧
      (s.program comments).Drops entry (firstArity tree) := by
  have hfirst := lookup_entryName hi hcall
  obtain ⟨f, hf, hname⟩ := exists_of_lookup h hfirst
  refine ⟨name_eq_of_lookup h hlookup hfirst, fun m m' n hm' hpc => ?_, ?_⟩
  · obtain ⟨ws, gs, horder⟩ := (disciplined_program h comments).upright_trial hm'
    have hpoint : PointOf fs s (s.entry.code s.startScope).length _ := .outside le_rfl
    rw [List.take_length, (balanced_entry h).effect_eq] at hpoint
    obtain ⟨hregion, hlength⟩ := horder.toInOrder.length_eq_of_point h hpc hpoint
    cases gs with
    | nil => exact horder.holds.sp.trans (hlength.trans (Int.add_zero _))
    | cons e gs => cases hregion
  · rw [firstArity_eq h hf hname]
    exact drops_of_mem h comments hf (hname ▸ hfirst)

end Clean

/-- An accepted program settles the arguments of its calls: each call of the source passes as many
words as every return of its function drops. Only the first call may owe some, those that the
parameters of the first function ask for, and the run then ends with as many global variables less.
-/
theorem arguments_settled {options : CompileOptions} {file source : String} {tree : Tree}
    {compiled : Compiled} (h : Accepted options file source tree compiled) {s : Script}
    (hs : Script.ofTree? tree = some s) :
    compiled.program.SettlesArguments s (firstArity tree) := by
  obtain ⟨statements, fs, s', hclean, hprogram⟩ := h.exists_clean
  obtain rfl : s = s' := Option.some.inj (hs.symm.trans hclean.script)
  rw [hprogram]
  have hp := Discipline.disciplined_program hclean options.comments
  have hfirst (e : Discipline.Frame) := parameters_eq_firstArity hclean options.comments (e := e)
  refine ⟨fun address i name entry hi hcall hlookup => ?_, fun m m' n hm' hhalting => ?_,
    fun m m₁ m₂ n hm₁ hstep hbusy hhalting k hk => ?_⟩
  · rcases Discipline.exists_callSite hclean hi hcall with ⟨c, hc, rfl⟩ | rfl
    · obtain ⟨hname, hpushes, hdrops⟩ :=
        passes_of_callSite hclean options.comments hc hi hcall hlookup
      exact .inl ⟨c, hc, rfl, hname, hpushes, hdrops⟩
    · obtain ⟨hname, hsp, hdrops⟩ :=
        passes_of_firstCall hclean options.comments hi hcall hlookup
      exact .inr ⟨hname, (s.program_has_entry options.comments).2.2, hsp, hdrops⟩
  · obtain ⟨hfp, hsp⟩ := hp.sp_of_isHalting hfirst hm' hhalting
    refine ⟨hfp, ?_⟩
    have hglobals : (s.program options.comments).globals = s.functionScope.globals.length := rfl
    omega
  · obtain ⟨ws, gs, horder⟩ := hp.upright_trial hm₁
    obtain ⟨e, us, v, -, hopened, hexit, hle, rfl, hlength, hholds⟩ :=
      horder.exists_return hp hstep hhalting hbusy
    rw [hfirst e hopened hexit] at hle hholds
    have hglobals : (s.program options.comments).globals = s.functionScope.globals.length := rfl
    have htake : k < (us.take (s.functionScope.globals.length - firstArity tree)).length := by
      rw [List.length_take_of_le (by omega)]
      omega
    rw [hholds.word? (by rw [List.length_append]; omega),
      horder.holds.word? (by rw [List.length_append]; omega), List.getElem?_append_left htake,
      List.getElem?_take_of_lt (by omega), List.getElem?_append_left (by omega)]

/-- The countdown calls its function with one argument, and ends behind its global variable. -/
theorem arguments_settled_countdown :
    ∃ tree compiled s m', Accepted {} "countdown" countdown tree compiled ∧
      Script.ofTree? tree = some s ∧ firstArity tree = 0 ∧
      compiled.program.SettlesArguments s (firstArity tree) ∧
      Machine.trial compiled.program 79 (Machine.initial { stackSize := 24 }) = .ok () m' ∧
      m'.IsHalting ∧ m'.sp = compiled.program.globals + 1 := by
  obtain ⟨tree, compiled, g, haccepted, hmain, hparameters⟩ := accepted_countdown
  obtain ⟨statements, parts, s, hclean, hprogram⟩ := haccepted.exists_clean
  have hfirst : firstArity tree = 0 := by
    have hnamed : Meaning.functionNamed? tree entryName = some g := hmain
    rw [firstArity, hnamed, Option.map_some, Option.getD_some, hparameters]
    rfl
  have hrun : ((Source.tree "countdown" countdown).toOption.bind Script.ofTree?).map (fun s =>
      ((Machine.trial (s.program true) 79 *> get).run' (Machine.initial { stackSize := 24 })).any
        fun m' => decide m'.IsHalting) = some true := by
    decide +kernel
  rw [haccepted.parsed, Except.toOption, Option.bind_some, hclean.script, Option.map_some,
    Option.some.injEq] at hrun
  obtain ⟨m', htrial, hhalting⟩ := Machine.exists_ok_of_any hrun
  rw [decide_eq_true_eq] at hhalting
  have hreached : Machine.trial compiled.program 79 (Machine.initial { stackSize := 24 }) =
      .ok () m' := by
    rw [hprogram]
    exact htrial
  have hsettled := arguments_settled haccepted hclean.script
  refine ⟨tree, compiled, s, m', haccepted, hclean.script, hfirst, hsettled, hreached, hhalting,
    ?_⟩
  have hends := (hsettled.ends _ _ _ hreached hhalting).2
  rwa [hfirst, Int.natCast_zero, Int.sub_zero] at hends

/-- A program whose first function takes an argument, with a global variable that pays for it. -/
def owing : String := "var g: int = 5 fn main(a: int) -> int \x7b return 7 \x7d"

/-- The first call owes an argument: the run does not end behind the global variable, and the return
writes over it. -/
theorem first_call_owes_argument :
    ∃ tree compiled m₁ m₂, Accepted {} "owing" owing tree compiled ∧
      Machine.trial compiled.program 5 (Machine.initial { stackSize := 8 }) = .ok () m₁ ∧
      Machine.step m₁ = .ok () m₂ ∧ m₂.IsHalting ∧ m₂.sp ≠ compiled.program.globals + 1 ∧
      m₁.word? 0 = some 5 ∧ m₂.word? 0 = some 7 := by
  have hrun : ((Source.tree "owing" owing).toOption.bind Script.ofTree?).map (fun s =>
      ((Machine.trial (s.program true) 5 *> get).run' (Machine.initial { stackSize := 8 })).any
        fun m₁ => ((Machine.step *> get).run' m₁).any fun m₂ =>
          decide (m₂.IsHalting ∧ m₂.sp ≠ (s.program true).globals + 1 ∧
            m₁.word? 0 = some 5 ∧ m₂.word? 0 = some 7)) = some true := by
    decide +kernel
  obtain ⟨tree, compiled, haccepted⟩ :=
    Accepted.exists_of_toBool {} "owing" owing (by decide) (by decide +kernel)
  obtain ⟨statements, parts, s, hclean, hprogram⟩ := haccepted.exists_clean
  have hprogram' : compiled.program = s.program true := hprogram
  rw [haccepted.parsed, Except.toOption, Option.bind_some, hclean.script, Option.map_some,
    Option.some.injEq] at hrun
  obtain ⟨m₁, htrial, hrest⟩ := Machine.exists_ok_of_any hrun
  obtain ⟨m₂, hstep, hends⟩ := Machine.exists_ok_of_any hrest
  rw [decide_eq_true_eq] at hends
  rw [← hprogram'] at htrial hends
  exact ⟨tree, compiled, m₁, m₂, haccepted, htrial, hstep, hends⟩

end StackLang
