import StackLang.Proofs.Simulation.Expression

/-!
# Wrapping once at the end

Sums, differences, products and negatives of words are wrapped at every step, and so are numerals.
All of these commute with wrapping, so the code of an expression made of them comes to the same word
as the exact integer wrapped once. This holds wherever the code stands and in whatever state the
machine is, as long as the variables are live words and there is room for the operands.
-/

namespace StackLang

/-! ## Wrapped arithmetic -/

namespace Word

theorem wrap_add_wrap (a b : Int) : wrap (wrap a + wrap b) = wrap (a + b) := by
  simp only [wrap, Int.bmod_add_bmod, Int.add_bmod_bmod]

theorem wrap_sub_wrap (a b : Int) : wrap (wrap a - wrap b) = wrap (a - b) := by
  simp only [wrap, Int.bmod_sub_bmod, Int.sub_bmod_bmod]

theorem wrap_mul_wrap (a b : Int) : wrap (wrap a * wrap b) = wrap (a * b) := by
  simp only [wrap, Int.bmod_mul_bmod, Int.mul_bmod_bmod]

theorem wrap_neg_wrap (a : Int) : wrap (-wrap a) = wrap (-a) := Int.bmod_neg_bmod

@[simp] theorem wrap_wrap (a : Int) : wrap (wrap a) = wrap a := Int.bmod_bmod

end Word

/-! ## Exact values -/

/-- The natural number that a text of digits denotes, unless it is too long to be converted. -/
def Text.numeral? (digits : String) : Option Nat :=
  if digits ≠ "" ∧ digits.toList.all isAsciiDigit ∧ digits.length ≤ digitLimit then
    some (Nat.ofDigits 10 (digits.toList.reverse.map fun c => c.toNat - '0'.toNat))
  else none

/-- What sums, differences and products are among the integers. -/
def integerOperator? : String → Option (Int → Int → Int)
  | "+" => some (· + ·)
  | "-" => some (· - ·)
  | "*" => some (· * ·)
  | _ => none

namespace Tree

/-- The exact value of a tree made of numerals, variables with these values, minus signs, sums,
differences and products. -/
def unwrapped? (value : String → Option Int) : Tree → Option Int
  | ⟨.number, some digits, _, [], _⟩ => (Text.numeral? digits).map Int.ofNat
  | ⟨.identifier, some name, _, [], _⟩ => value name
  | ⟨.negate, _, _, [operand], _⟩ => (operand.unwrapped? value).map Int.neg
  | ⟨kind, _, attributes, [left, right], _⟩ =>
    if kind.isBinary then do
      let f ← (attributes.get? "operator").bind integerOperator?
      return f (← left.unwrapped? value) (← right.unwrapped? value)
    else none
  | _ => none

mutual

/-- The number of words that computing a tree needs at once: operands wait on the stack while those
after them are computed. -/
def room : Tree → Nat
  | ⟨_, _, _, children, _⟩ => max 1 (roomAll children)

/-- The number of words that computing several trees needs at once. -/
def roomAll : List Tree → Nat
  | [] => 0
  | t :: ts => max t.room (roomAll ts + 1)

end

theorem one_le_room (t : Tree) : 1 ≤ t.room := by
  cases t
  exact Nat.le_max_left _ _

theorem lt_of_room (t : Tree) {count : Nat} {size : Int} (h : (count + t.room : Int) ≤ size) :
    (count : Int) < size := by
  have hone := t.one_le_room
  omega

theorem room_single (kind : Kind) (value : Option String) (attributes : Attributes)
    (operand : Tree) (location : Option Location) :
    room ⟨kind, value, attributes, [operand], location⟩ = operand.room := by
  have hoperand := operand.one_le_room
  simp only [room, roomAll]
  omega

/-- Two operands under a node need room for the right one beside the value of the left one. -/
theorem room_pair (kind : Kind) (value : Option String) (attributes : Attributes)
    (left right : Tree) (location : Option Location) :
    room ⟨kind, value, attributes, [left, right], location⟩ = max left.room (right.room + 1) := by
  have hright := right.one_le_room
  simp only [room, roomAll]
  omega

end Tree

/-! ## How trees with exact values are read -/

/-- An operator on integers is one of the machine that computes the same up to wrapping. -/
theorem exists_operator_of_integer {text : String} {f : Int → Int → Int}
    (h : integerOperator? text = some f) :
    ∃ op, Operator.ofSpelling? text = some op ∧
      ∀ a b, op.compute? (Word.wrap a) (Word.wrap b) = some (Word.wrap (f a b)) := by
  unfold integerOperator? at h
  split at h
  · obtain rfl := Option.some.inj h
    exact ⟨.add, by decide, fun a b => congrArg some (Word.wrap_add_wrap a b)⟩
  · obtain rfl := Option.some.inj h
    exact ⟨.sub, by decide, fun a b => congrArg some (Word.wrap_sub_wrap a b)⟩
  · obtain rfl := Option.some.inj h
    exact ⟨.mul, by decide, fun a b => congrArg some (Word.wrap_mul_wrap a b)⟩
  · cases h

namespace Expr

/-- Numerals that denote a number are read as numbers. -/
theorem ofNumber_of_numeral? {digits : String} {k : Nat} (h : Text.numeral? digits = some k)
    (location : Option Location) :
    ofNumber digits location = .number digits ∧ digits.length ≤ Text.digitLimit ∧
      Text.ofAsciiDigits digits.toList = k := by
  rw [Text.numeral?] at h
  split at h
  · rename_i hdigits
    obtain ⟨hne, hall, hlength⟩ := hdigits
    refine ⟨ofTree_number location hne (List.all_eq_true.mp hall), hlength, ?_⟩
    rw [Simulation.ofAsciiDigits_eq, Option.some.inj h]
  · cases h

/-- Two operands with exact values under an operator on integers are read as an operation that
computes its exact value up to wrapping. -/
theorem exists_binary_of_exact {value : String → Option Int} {attributes : Tree.Attributes}
    {kind : Tree.Kind} {left right : Tree} {n : Int} (hkind : kind.isBinary = true)
    (text : Option String) (location : Option Location)
    (h : (do
      let f ← (attributes.get? "operator").bind integerOperator?
      return f (← left.unwrapped? value) (← right.unwrapped? value)) = some n) :
    ∃ op a b, left.unwrapped? value = some a ∧ right.unwrapped? value = some b ∧
      op.compute? (Word.wrap a) (Word.wrap b) = some (Word.wrap n) ∧
      ofTree ⟨kind, text, attributes, [left, right], location⟩ =
        .binary op (ofTree left) (ofTree right) := by
  simp only [bind, Option.bind_eq_some_iff, pure, Option.some.injEq] at h
  obtain ⟨f, ⟨spelling, hspelling, hf⟩, a, ha, b, hb, rfl⟩ := h
  obtain ⟨op, hop, hcompute⟩ := exists_operator_of_integer hf
  have hread : ofOperator (attributes.get? "operator") (ofTree left) (ofTree right) location =
      .binary op (ofTree left) (ofTree right) := by
    simp only [ofOperator, hspelling, Option.bind_some, hop]
  refine ⟨op, a, b, ha, hb, hcompute a b, ?_⟩
  cases kind <;> first
    | exact hread
    | cases hkind

/-- Nothing is found in a tree with an exact value. -/
theorem findings_of_exact {σ : Scope} {value : String → Option Int}
    (hvalue : ∀ name v, value name = some v → ∃ place, σ.resolve? (some name) = some place)
    {t : Tree} {n : Int} (h : t.unwrapped? value = some n) : (ofTree t).findings σ = [] := by
  fun_induction Tree.unwrapped? value t generalizing n with
  | case1 digits attributes location =>
    obtain ⟨k, hk, -⟩ := Option.map_eq_some_iff.mp h
    obtain ⟨hread, hlength, -⟩ := ofNumber_of_numeral? hk location
    change (ofNumber digits location).findings σ = []
    rw [hread]
    exact if_neg (Nat.not_lt.mpr hlength)
  | case2 name attributes location =>
    obtain ⟨place, hplace⟩ := hvalue name n h
    change σ.variableFindings (some name) location = []
    rw [Scope.variableFindings, hplace]
  | case3 text attributes operand location ih =>
    obtain ⟨a, ha, -⟩ := Option.map_eq_some_iff.mp h
    exact ih ha
  | case4 kind text attributes left right location hkind ihl ihr =>
    obtain ⟨op, a, b, ha, hb, -, hread⟩ := exists_binary_of_exact hkind text location h
    rw [hread, findings, ihl ha, ihr hb, List.append_nil]
  | case5 => cases h
  | case6 => cases h

end Expr

/-- Linked code stands in a program that consists of it. -/
theorem Program.has_of_linked {p : Program} {comments : Bool} {entries : List (String × Nat)}
    {ds : List Draft} (h : p.code = (Draft.link comments entries 0 ds).toArray) :
    p.Has entries 0 ds := by
  intro k d hd
  have hlinked := Draft.getElem?_link comments entries 0 k ds
  rw [hd, Option.map_some] at hlinked
  exact ⟨_, by rw [h, List.getElem?_toArray, Nat.zero_add, hlinked], rfl⟩

/-! ## Variables of a machine -/

/-- The address of a place in the frame with a base. -/
def Place.address (fp : Int) : Place → Int
  | .global slot => slot
  | .frame offset => fp + offset

namespace Machine

/-- The live word at an address, if it is one of 32 bits. -/
def liveWord? (m : Machine) (address : Int) : Option Int :=
  if 0 ≤ address ∧ address < m.sp then m.stack[address.toNat]?.filter (Word.IsWord ·) else none

/-- The value of a variable: the live word at the place that its name resolves to. -/
def valueOf? (m : Machine) (σ : Scope) (name : String) : Option Int :=
  (σ.resolve? (some name)).bind fun place => m.liveWord? (place.address m.fp)

/-- The words that a machine holds give the variables of a scope these values. -/
def Supplies (σ : Scope) (fp : Int) (ws : List Int) (value : String → Option Int) : Prop :=
  ∀ name v, value name = some v → ∃ place, σ.resolve? (some name) = some place ∧
    ∃ k : Nat, place.address fp = k ∧ ws[k]? = some v ∧ Word.IsWord v

variable {m m₁ m' : Machine} {σ : Scope} {ws : List Int} {fp : Int} {value : String → Option Int}
  {i : Instruction} {v : Int}

theorem Supplies.append (h : Supplies σ fp ws value) (us : List Int) :
    Supplies σ fp (ws ++ us) value := by
  intro name v hv
  obtain ⟨place, hplace, k, hk, hword, hv⟩ := h name v hv
  have hlt : k < ws.length := (List.getElem?_eq_some_iff.mp hword).1
  exact ⟨place, hplace, k, hk, by rw [List.getElem?_append_left hlt, hword], hv⟩

theorem Holds.supplies (h : m.Holds ws) (σ : Scope) : Supplies σ m.fp ws (m.valueOf? σ) := by
  intro name v hv
  obtain ⟨place, hplace, hword⟩ := Option.bind_eq_some_iff.mp hv
  rw [liveWord?] at hword
  split at hword
  · rename_i hlive
    obtain ⟨hword, hv⟩ := Option.filter_eq_some_iff.mp hword
    have hlt : (place.address m.fp).toNat < ws.length := by
      have hsp := h.sp
      omega
    refine ⟨place, hplace, (place.address m.fp).toNat, by omega, ?_, of_decide_eq_true hv⟩
    rw [← h.words _ hlt, hword]
  · cases hword

/-! ## Code that pushes a word -/

/-- From the machine `m` with the live words `ws`, `length` steps lead to `m'`, which has one more
word on top. Nothing else has changed but the words above. -/
structure Pushed (m : Machine) (ws : List Int) (v : Int) (length : Nat) (m' : Machine) : Prop where
  run : stepMany length m = .ok () m'
  holds : m'.Holds (ws ++ [v])
  pc : m'.pc = m.pc + length
  fp : m'.fp = m.fp
  output : m'.output = m.output
  steps : m'.steps = m.steps + length
  keeps : m.Keeps m'

/-- The machine is at an instruction with this operation. -/
def At (m : Machine) (op : Operation) : Prop := ∃ i, m.current? = some i ∧ i.operation = op

theorem at_of_has {entries : List (String × Nat)} {address : Nat} {d : Draft} {op : Operation}
    (h : m.program.Has entries address [d]) (hpc : m.pc = address) (hd : d.action = .fixed op) :
    m.At op := by
  obtain ⟨i, hi, hoperation⟩ := h 0 d rfl
  rw [hd] at hoperation
  exact ⟨i, (current?_of_pc hpc).trans hi, hoperation⟩

theorem stepMany_one (m : Machine) : stepMany 1 m = step m := by
  cases hstep : step m with
  | ok u m' => exact (stepMany_succ_of_ok hstep).trans rfl
  | error e m' => exact stepMany_succ_of_error hstep

theorem Holds.addStep (h : m.Holds ws) : Holds { m with steps := m.steps + 1 } ws :=
  h.congr rfl rfl rfl

/-- A step that pops the words `us` and then pushes one in their place. -/
theorem pushed_of_step (us : List Int) (h : m.Holds (ws ++ us))
    (hroom : (ws.length : Int) < m.options.stackSize)
    (hstep : step m = (push i v >>= fun _ => advance)
      { m with steps := m.steps + 1, sp := ws.length }) :
    ∃ m', Pushed m ws v 1 m' := by
  have hpopped : Holds { m with steps := m.steps + 1, sp := ws.length } ws :=
    h.take.congr rfl rfl rfl
  refine ⟨_, (stepMany_one m).trans (hstep.trans (bind_of_ok (push_of_holds hpopped hroom))),
    ?_, rfl, rfl, rfl, rfl, rfl, rfl, rfl⟩
  exact (hpopped.push v hroom).congr rfl rfl rfl

theorem pushed_of_push (h : m.Holds ws) (hroom : (ws.length : Int) < m.options.stackSize)
    (hat : m.At (.push v)) : ∃ m', Pushed m ws (Word.wrap v) 1 m' := by
  obtain ⟨i, hi, hoperation⟩ := hat
  refine pushed_of_step (i := i) [] (by rwa [List.append_nil]) hroom ?_
  rw [step_eq_execute hi (by simp [hoperation]), execute, hoperation, ← h.sp]

theorem pushed_of_load {place : Place} {k : Nat} (h : m.Holds ws)
    (hroom : (ws.length : Int) < m.options.stackSize) (hat : m.At (Simulation.loadOf place))
    (hk : place.address m.fp = k) (hv : ws[k]? = some v) : ∃ m', Pushed m ws v 1 m' := by
  obtain ⟨i, hi, hoperation⟩ := hat
  have hload := load_of_holds (i := i) h.addStep hv
  rw [← hk] at hload
  refine pushed_of_step (i := i) [] (by rwa [List.append_nil]) hroom ?_
  rw [step_eq_execute hi (by cases place <;> simp [hoperation, Simulation.loadOf]), ← h.sp,
    ← hload]
  cases place <;> rw [execute, hoperation] <;> rfl

theorem pushed_of_negate (h : m.Holds (ws ++ [v]))
    (hat : m.At .negate) : ∃ m', Pushed m ws (Word.wrap (-v)) 1 m' := by
  obtain ⟨i, hi, hoperation⟩ := hat
  have hfits := h.fits
  rw [List.length_append, List.length_singleton] at hfits
  refine pushed_of_step (i := i) [v] h (by omega) ?_
  rw [step_eq_execute hi (by simp [hoperation]), execute, hoperation]
  exact bind_of_ok (pop_of_holds h.addStep)

theorem pushed_of_compute {op : Operator} {a b : Int} (h : m.Holds (ws ++ [a] ++ [b]))
    (hat : m.At (.compute op)) (hv : op.compute? a b = some v) : ∃ m', Pushed m ws v 1 m' := by
  obtain ⟨i, hi, hoperation⟩ := hat
  have hfits := h.fits
  rw [List.length_append, List.length_append, List.length_singleton] at hfits
  refine pushed_of_step (i := i) [a, b] (by simpa using h) (by omega) ?_
  rw [step_eq_execute hi (by simp [hoperation]), execute, hoperation]
  change Machine.compute i op _ = _
  rw [Machine.compute, bind_of_ok (pop_of_holds h.addStep),
    bind_of_ok (pop_of_holds h.addStep.take)]
  simp only [hv]

/-- Code after code; what the first one pushes may be gone in the end. -/
theorem Pushed.trans {us : List Int} {l r : Nat} {a : Int} (h : Pushed m ws a l m₁)
    (h' : Pushed m₁ us v r m') : Pushed m us v (l + r) m' where
  run := (stepMany_add_of_ok h.run).trans h'.run
  holds := h'.holds
  pc := by rw [h'.pc, h.pc]; omega
  fp := h'.fp.trans h.fp
  output := h'.output.trans h.output
  steps := by rw [h'.steps, h.steps, Nat.add_assoc]
  keeps := h.keeps.trans h'.keeps

/-! ## The code of exact values -/

/-- Code for two operands, and one instruction for the operator. -/
theorem exists_pushed_binary {entries : List (String × Nat)} {address : Nat} {left right : Expr}
    {op : Operator} {a b : Int} (hcompute : op.compute? a b = some v)
    (hhas : m.program.Has entries address ((Expr.binary op left right).code σ))
    (hpc : m.pc = address)
    (hleft : m.program.Has entries address (left.code σ) →
      ∃ m₁, Pushed m ws a (left.code σ).length m₁)
    (hright : ∀ m₁, Pushed m ws a (left.code σ).length m₁ →
      m₁.program.Has entries (address + (left.code σ).length) (right.code σ) →
      ∃ m₂, Pushed m₁ (ws ++ [a]) b (right.code σ).length m₂) :
    ∃ m', Pushed m ws v ((Expr.binary op left right).code σ).length m' := by
  rw [Expr.code, Program.has_append, Program.has_append] at hhas
  obtain ⟨⟨hhas₁, hhas₂⟩, hhas₃⟩ := hhas
  obtain ⟨m₁, h₁⟩ := hleft hhas₁
  obtain ⟨m₂, h₂⟩ := hright m₁ h₁ (by rwa [h₁.keeps.program])
  have h₁₂ := h₁.trans h₂
  have hpc₂ : m₂.pc = (address + (left.code σ ++ right.code σ).length : Nat) := by
    rw [h₁₂.pc, hpc, List.length_append]
    rfl
  rw [← h₁₂.keeps.program] at hhas₃
  obtain ⟨m₃, h₃⟩ := pushed_of_compute h₂.holds (at_of_has hhas₃ hpc₂ rfl) hcompute
  rw [Expr.code, List.length_append, List.length_append]
  exact ⟨m₃, h₁₂.trans h₃⟩

/-- The code of a tree with an exact value pushes that value, wrapped once. -/
theorem exists_pushed {t : Tree} {n : Int} {entries : List (String × Nat)} {address : Nat}
    (hexact : t.unwrapped? value = some n) (hvalue : Supplies σ m.fp ws value) (hholds : m.Holds ws)
    (hroom : (ws.length + t.room : Int) ≤ m.options.stackSize)
    (hhas : m.program.Has entries address ((Expr.ofTree t).code σ)) (hpc : m.pc = address) :
    ∃ m', Pushed m ws (Word.wrap n) ((Expr.ofTree t).code σ).length m' := by
  fun_induction Tree.unwrapped? value t generalizing m ws n address with
  | case1 digits attributes location =>
    obtain ⟨k, hk, rfl⟩ := Option.map_eq_some_iff.mp hexact
    obtain ⟨hread, -, hdigits⟩ := Expr.ofNumber_of_numeral? hk location
    have hread : Expr.ofTree ⟨.number, some digits, attributes, [], location⟩ = .number digits :=
      hread
    rw [hread] at hhas ⊢
    rw [Expr.code] at hhas
    have hpushed :=
      pushed_of_push hholds (Tree.lt_of_room _ hroom) (at_of_has hhas hpc rfl)
    rw [Word.wrap_wrap, hdigits] at hpushed
    exact hpushed
  | case2 name attributes location =>
    obtain ⟨place, hplace, k, hk, hword, hisWord⟩ := hvalue name n hexact
    have hread : (Expr.ofTree ⟨.identifier, some name, attributes, [], location⟩).code σ =
        [.load place ("load " ++ name)] := by
      change (Expr.variable (some name) location).code σ = _
      rw [Expr.code, hplace]
      rfl
    rw [hread] at hhas ⊢
    have hat : m.At (Simulation.loadOf place) := at_of_has hhas hpc (by cases place <;> rfl)
    rw [Word.wrap_eq_self hisWord]
    exact pushed_of_load hholds (Tree.lt_of_room _ hroom) hat hk hword
  | case3 text attributes operand location ih =>
    obtain ⟨a, ha, rfl⟩ := Option.map_eq_some_iff.mp hexact
    have hread : Expr.ofTree ⟨.negate, text, attributes, [operand], location⟩ =
        .negate (Expr.ofTree operand) := rfl
    rw [hread, Expr.code] at hhas ⊢
    rw [Program.has_append] at hhas
    rw [Tree.room_single] at hroom
    obtain ⟨m₁, h₁⟩ := ih ha hvalue hholds hroom hhas.1 hpc
    have hpc₁ : m₁.pc = (address + ((Expr.ofTree operand).code σ).length : Nat) := by
      rw [h₁.pc, hpc]
      rfl
    have hhas₁ := hhas.2
    rw [← h₁.keeps.program] at hhas₁
    obtain ⟨m₂, h₂⟩ := pushed_of_negate h₁.holds (at_of_has hhas₁ hpc₁ rfl)
    rw [Word.wrap_neg_wrap] at h₂
    rw [List.length_append]
    exact ⟨m₂, h₁.trans h₂⟩
  | case4 kind text attributes left right location hkind ihl ihr =>
    obtain ⟨op, a, b, ha, hb, hcompute, hread⟩ :=
      Expr.exists_binary_of_exact hkind text location hexact
    rw [Tree.room_pair] at hroom
    rw [hread] at hhas ⊢
    refine exists_pushed_binary hcompute hhas hpc ?_ ?_
    · intro hhas₁
      exact ihl ha hvalue hholds (by omega) hhas₁ hpc
    · intro m₁ h₁ hhas₂
      -- The left value stands above all variables and takes one word of the room.
      have hvalue₁ : Supplies σ m₁.fp (ws ++ [Word.wrap a]) value := by
        rw [h₁.fp]
        exact hvalue.append _
      have hroom₁ : ((ws ++ [Word.wrap a]).length + right.room : Int) ≤
          m₁.options.stackSize := by
        rw [h₁.keeps.options, List.length_append, List.length_singleton]
        omega
      have hpc₁ : m₁.pc = (address + ((Expr.ofTree left).code σ).length : Nat) := by
        rw [h₁.pc, hpc]
        rfl
      exact ihr hb hvalue₁ h₁.holds hroom₁ hhas₂ hpc₁
  | case5 => cases hexact
  | case6 => cases hexact

/-- Wrapping at every step is wrapping once at the end. Whenever the variables of a tree made of
numerals, variables, minus signs, sums, differences and products are live words, nothing is found in
it, and from any state of a machine with room for its operands its code leads to the state right
after it in which the exact value, wrapped once, stands on the words that were there. -/
theorem wrapped_once_at_end {t : Tree} {n : Int} {entries : List (String × Nat)} {address : Nat}
    (hholds : m.Holds ws) (hexact : t.unwrapped? (m.valueOf? σ) = some n)
    (hroom : (ws.length + t.room : Int) ≤ m.options.stackSize)
    (hhas : m.program.Has entries address ((Expr.ofTree t).code σ)) (hpc : m.pc = address) :
    (Expr.ofTree t).findings σ = [] ∧
      ∃ m', Pushed m ws (Word.wrap n) ((Expr.ofTree t).code σ).length m' := by
  have hvalue := hholds.supplies σ
  refine ⟨Expr.findings_of_exact (fun name v hv => ?_) hexact,
    exists_pushed hexact hvalue hholds hroom hhas hpc⟩
  obtain ⟨place, hplace, -⟩ := hvalue name v hv
  exact ⟨place, hplace⟩

/-- The leaf of a numeral. -/
def numeralLeaf (digits : String) : Tree := { kind := .number, value := some digits }

/-- The tree of `--2147483648 - 4294967297 * x`. -/
def doubleNegation : Tree :=
  { kind := .expression, attributes := [("operator", "-")]
    children := [
      { kind := .negate, children := [
          { kind := .negate, children := [numeralLeaf "2147483648"] }] },
      { kind := .term, attributes := [("operator", "*")]
        children := [numeralLeaf "4294967297", { kind := .identifier, value := some "x" }] }] }

/-- One variable in the frame. -/
def singleVariable : Scope := { signatures := [], globals := [], locals := [(some "x", 0)] }

/-- A machine at the code of the tree, with one live word and room for three more. -/
def beforeDoubleNegation : Machine :=
  { initial { stackSize := 4 } with
    program := { code :=
      (Draft.link false [] 0 ((Expr.ofTree doubleNegation).code singleVariable)).toArray }
    stack := #[-3, 0, 0, 0]
    sp := 1 }

theorem wrapped_once_at_end_doubleNegation :
    beforeDoubleNegation.Holds [-3] ∧
      doubleNegation.unwrapped? (beforeDoubleNegation.valueOf? singleVariable) = some 15032385539 ∧
      (Expr.ofTree doubleNegation).findings singleVariable = [] ∧
      ∃ m', Pushed beforeDoubleNegation [-3] (-2147483645) 7 m' := by
  have hholds : beforeDoubleNegation.Holds [-3] := by
    refine ⟨rfl, rfl, by decide, ?_⟩
    rintro (_ | k) hk
    · rfl
    · cases hk with
      | step hk => cases hk
  have hexact : doubleNegation.unwrapped? (beforeDoubleNegation.valueOf? singleVariable) =
      some 15032385539 := by
    decide +kernel
  exact ⟨hholds, hexact,
    wrapped_once_at_end hholds hexact (by decide) (Program.has_of_linked rfl) rfl⟩

end Machine

end StackLang
