import StackLang.Machine

/-!
# Activations

The stack of a running program as what it is made of: the global variables, and for every call that
has not returned the arguments, the two saved words, the variables and the temporaries. A step on
such a configuration touches the parts that its instruction is meant for and is stuck otherwise.
-/

namespace StackLang

/-- A call that has not returned yet, or the code outside functions. Temporaries stand newest first.
-/
inductive Activation where
  | entry (temps : List Int)
  | call (caller : Activation) (arguments : List Int) (returnTo : Nat) (locals temps : List Int)

namespace Activation

/-- The temporaries. -/
def temps : Activation → List Int
  | entry temps | call _ _ _ _ temps => temps

/-- The activation with other temporaries. -/
def withTemps (a : Activation) (temps : List Int) : Activation :=
  match a with
  | entry _ => entry temps
  | call caller arguments returnTo locals _ => call caller arguments returnTo locals temps

/-- The number of words up to the top, above `count` global variables. -/
def height (count : Nat) : Activation → Nat
  | entry temps => count + temps.length
  | call caller arguments _ locals temps =>
    caller.height count + arguments.length + 2 + locals.length + temps.length

/-- Where the variables start. -/
def base (count : Nat) : Activation → Nat
  | entry _ => 0
  | call caller arguments _ _ _ => caller.height count + arguments.length + 2

/-- The words above the global variables without the temporaries. -/
def fixed (count : Nat) : Activation → List Int
  | entry _ => []
  | call caller arguments returnTo locals _ =>
    caller.fixed count ++ caller.temps.reverse ++ arguments ++
      [(returnTo : Int), (caller.base count : Int)] ++ locals

/-- The words above the global variables, from the bottom to the top. -/
def words (count : Nat) (a : Activation) : List Int := a.fixed count ++ a.temps.reverse

/-- A word of a frame that code may name. -/
inductive Cell where
  | argument (i : Nat)
  | declared (i : Nat)
deriving DecidableEq

/-- The word at an offset from the base, if it is an argument or a variable. -/
def cell? (a : Activation) (offset : Int) : Option Cell :=
  match a with
  | entry _ => none
  | call _ arguments _ locals _ =>
    if 0 ≤ offset ∧ offset < locals.length then some (.declared offset.toNat)
    else if -(arguments.length + 2) ≤ offset ∧ offset < -2 then
      some (.argument (arguments.length + 2 + offset).toNat)
    else none

/-- The value of a cell. -/
def read (a : Activation) (c : Cell) : Int :=
  match a, c with
  | call _ arguments _ _ _, .argument i => arguments[i]?.getD 0
  | call _ _ _ locals _, .declared i => locals[i]?.getD 0
  | entry _, _ => 0

/-- The activation with another value of a cell. -/
def write (a : Activation) (c : Cell) (v : Int) : Activation :=
  match a, c with
  | call caller arguments returnTo locals temps, .argument i =>
    call caller (arguments.set i v) returnTo locals temps
  | call caller arguments returnTo locals temps, .declared i =>
    call caller arguments returnTo (locals.set i v) temps
  | entry temps, _ => entry temps

@[simp] theorem temps_call (caller : Activation) (arguments : List Int) (returnTo : Nat)
    (locals ts : List Int) : (call caller arguments returnTo locals ts).temps = ts := rfl

@[simp] theorem temps_withTemps (a : Activation) (ts : List Int) : (a.withTemps ts).temps = ts := by
  cases a <;> rfl

@[simp] theorem withTemps_temps (a : Activation) : a.withTemps a.temps = a := by
  cases a <;> rfl

@[simp] theorem fixed_withTemps (count : Nat) (a : Activation) (ts : List Int) :
    (a.withTemps ts).fixed count = a.fixed count := by
  cases a <;> rfl

@[simp] theorem base_withTemps (count : Nat) (a : Activation) (ts : List Int) :
    (a.withTemps ts).base count = a.base count := by
  cases a <;> rfl

@[simp] theorem cell?_withTemps (a : Activation) (ts : List Int) (offset : Int) :
    (a.withTemps ts).cell? offset = a.cell? offset := by
  cases a <;> rfl

theorem words_withTemps (count : Nat) (a : Activation) (ts : List Int) :
    (a.withTemps ts).words count = a.fixed count ++ ts.reverse := by
  rw [words, fixed_withTemps, temps_withTemps]

/-- A new temporary is a new word on top. -/
theorem words_withTemps_cons (count : Nat) (a : Activation) (v : Int) (ts : List Int) :
    (a.withTemps (v :: ts)).words count = (a.withTemps ts).words count ++ [v] := by
  simp [words_withTemps]

theorem length_words (count : Nat) (a : Activation) :
    count + (a.words count).length = a.height count := by
  induction a with
  | entry temps => simp [words, fixed, Activation.temps, height]
  | call caller arguments returnTo locals temps ih =>
    simp only [words, List.length_append, List.length_reverse] at ih
    simp only [words, fixed, Activation.temps, height, List.length_append, List.length_reverse,
      List.length_cons, List.length_nil, ← ih]
    omega

/-- Where the word of a cell stands among the words above the global variables. -/
def place (count : Nat) (a : Activation) (c : Cell) : Nat :=
  match a, c with
  | call caller _ _ _ _, .argument i => (caller.words count).length + i
  | call caller arguments _ _ _, .declared i =>
    (caller.words count).length + arguments.length + 2 + i
  | entry _, _ => 0

variable {a : Activation} {offset : Int} {c : Cell}

/-- An offset that code may name is that of its cell. -/
theorem base_add_of_cell? (h : a.cell? offset = some c) (count : Nat) :
    (a.base count : Int) + offset = count + a.place count c := by
  cases a with
  | entry temps => cases h
  | call caller arguments returnTo locals temps =>
    have hlength := length_words count caller
    simp only [cell?] at h
    split at h
    · obtain rfl := Option.some.inj h
      simp only [base, place]
      omega
    · split at h
      · obtain rfl := Option.some.inj h
        simp only [base, place]
        omega
      · cases h

theorem fixed_getElem?_of_cell? (h : a.cell? offset = some c) (count : Nat) :
    (a.fixed count)[a.place count c]? = some (a.read c) := by
  cases a with
  | entry temps => cases h
  | call caller arguments returnTo locals temps =>
    simp only [cell?] at h
    split at h
    · rename_i hlocal
      obtain rfl := Option.some.inj h
      have hi : offset.toNat < locals.length := by omega
      simp only [fixed, place, read, words]
      rw [List.getElem?_append_right (by simp; omega)]
      simp only [List.length_append, List.length_reverse, List.length_cons, List.length_nil]
      rw [List.getElem?_eq_getElem hi, Option.getD_some, List.getElem?_eq_some_iff]
      refine ⟨by omega, ?_⟩
      congr 1
      omega
    · split at h
      · rename_i hargument
        obtain rfl := Option.some.inj h
        have hi : (arguments.length + 2 + offset).toNat < arguments.length := by omega
        simp only [fixed, place, read, words]
        rw [List.append_assoc (_ ++ arguments), List.append_assoc _ arguments,
          List.getElem?_append_right (by simp), List.getElem?_append_left (by simp; omega)]
        simp [hi]
      · cases h

theorem fixed_set_of_cell? (h : a.cell? offset = some c) (count : Nat) (v : Int) :
    (a.fixed count).set (a.place count c) v = (a.write c v).fixed count := by
  cases a with
  | entry temps => cases h
  | call caller arguments returnTo locals temps =>
    simp only [cell?] at h
    split at h
    · obtain rfl := Option.some.inj h
      simp only [fixed, place, write, words]
      rw [List.set_append_right _ _ (by simp; omega)]
      congr 2
      simp only [List.length_append, List.length_reverse, List.length_cons, List.length_nil]
      omega
    · split at h
      · rename_i hargument
        obtain rfl := Option.some.inj h
        have hi : (arguments.length + 2 + offset).toNat < arguments.length := by omega
        simp only [fixed, place, write, words]
        rw [List.append_assoc (_ ++ arguments), List.append_assoc _ arguments,
          List.set_append_right _ _ (by simp), List.set_append_left _ _ (by simp; omega)]
        simp [List.append_assoc]
      · cases h

@[simp] theorem base_write (count : Nat) (a : Activation) (c : Cell) (v : Int) :
    (a.write c v).base count = a.base count := by
  cases a <;> cases c <;> simp [write, base]

@[simp] theorem temps_write (a : Activation) (c : Cell) (v : Int) :
    (a.write c v).temps = a.temps := by
  cases a <;> cases c <;> rfl

end Activation

/-- A configuration of a running program. -/
structure Config where
  pc : Nat
  globals : List Int
  activation : Activation
  output : List String

namespace Config

/-- The words of the stack from the bottom to the top. -/
def words (c : Config) : List Int := c.globals ++ c.activation.words c.globals.length

/-- The number of words on the stack. -/
def height (c : Config) : Nat := c.activation.height c.globals.length

theorem length_words (c : Config) : c.words.length = c.height := by
  rw [words, List.length_append, Activation.length_words, height]

/-- Where the variables of the running function start. -/
def base (c : Config) : Nat := c.activation.base c.globals.length

/-- The next instruction with other temporaries. -/
def advance (c : Config) (temps : List Int) : Config :=
  { c with pc := c.pc + 1, activation := c.activation.withTemps temps }

theorem words_advance_cons (c : Config) (v : Int) (ts : List Int) :
    (c.advance (v :: ts)).words = (c.advance ts).words ++ [v] := by
  simp [words, advance, Activation.words_withTemps_cons]

theorem words_advance_temps (c : Config) : (c.advance c.activation.temps).words = c.words := by
  simp [words, advance]

/-- The topmost temporary is the topmost word. -/
theorem words_of_temps_cons {c : Config} {v : Int} {ts : List Int}
    (h : c.activation.temps = v :: ts) : c.words = (c.advance ts).words ++ [v] := by
  rw [← words_advance_temps, h, words_advance_cons]

@[simp] theorem base_advance (c : Config) (ts : List Int) : (c.advance ts).base = c.base := by
  simp [base, advance]

/-- What a step on a configuration comes to. -/
inductive Outcome where
  | next (c : Config)
  | halted
  | dividesByZero
  | stuck

/-- A jump within a program of a size, with other temporaries. -/
def jump (size : Nat) (target : Int) (c : Config) (temps : List Int) : Outcome :=
  if 0 ≤ target ∧ target < size then
    .next { c with pc := target.toNat, activation := c.activation.withTemps temps }
  else .stuck

/-- The start of a called function, which takes the topmost temporaries as its arguments. -/
def called (arity : Nat) (target : Int) (c : Config) : Config :=
  { c with
    pc := target.toNat
    activation := .call (c.activation.withTemps (c.activation.temps.drop arity))
      (c.activation.temps.take arity).reverse (c.pc + 1) [] [] }

/-- A call within a program of a size. -/
def enterCall (size arity : Nat) (target : Int) (c : Config) : Outcome :=
  if (0 ≤ target ∧ target < size) ∧ arity ≤ c.activation.temps.length then
    .next (c.called arity target)
  else .stuck

/-- A return leaves the value with the caller. -/
def leaveCall (arguments : Int) (v : Int) (c : Config) : Outcome :=
  match c.activation with
  | .entry _ => .stuck
  | .call caller taken returnTo _ _ =>
    if arguments = taken.length then
      .next { c with pc := returnTo, activation := caller.withTemps (v :: caller.temps) }
    else .stuck

/-- The variables of a function start as zeros. -/
def reserve (locals : Int) (c : Config) : Outcome :=
  match c.activation with
  | .call caller arguments returnTo [] [] =>
    if 0 ≤ locals then
      .next { c with
        pc := c.pc + 1
        activation := .call caller arguments returnTo (List.replicate locals.toNat 0) [] }
    else .stuck
  | _ => .stuck

/-- The arguments of a call stay where they are; only the two saved words are new. -/
theorem words_called (arity : Nat) (target : Int) (c : Config) :
    (c.called arity target).words = c.words ++ [((c.pc + 1 : Nat) : Int)] ++ [(c.base : Int)] := by
  have htemps : (c.activation.temps.drop arity).reverse ++ (c.activation.temps.take arity).reverse =
      c.activation.temps.reverse := by
    rw [← List.reverse_append, List.take_append_drop]
  simp only [called, words, Activation.words, Activation.fixed, Activation.temps_call,
    Activation.fixed_withTemps, Activation.temps_withTemps, Activation.base_withTemps,
    List.reverse_nil, List.append_nil, List.append_assoc, base]
  rw [← htemps]
  simp only [List.append_assoc, List.cons_append, List.nil_append]

theorem base_called (arity : Nat) (target : Int) (c : Config) :
    (c.called arity target).base = (c.called arity target).height := rfl

/-- Carries out an operation in a program of a size, where `arity` tells how many arguments the
function at an address takes. -/
def perform (arity : Int → Nat) (size : Nat) (c : Config) (op : Operation) : Outcome :=
  match op, c.activation.temps with
  | .push v, ts => .next (c.advance (Word.wrap v :: ts))
  | .load offset, ts =>
    match c.activation.cell? offset with
    | some cell => .next (c.advance (c.activation.read cell :: ts))
    | none => .stuck
  | .store offset, v :: ts =>
    match c.activation.cell? offset with
    | some cell =>
      .next { c.advance ts with activation := (c.activation.withTemps ts).write cell v }
    | none => .stuck
  | .loadGlobal slot, ts =>
    if 0 ≤ slot ∧ slot < c.globals.length then
      .next (c.advance (c.globals[slot.toNat]?.getD 0 :: ts))
    else .stuck
  | .storeGlobal slot, v :: ts =>
    if 0 ≤ slot ∧ slot < c.globals.length then
      .next { c.advance ts with globals := c.globals.set slot.toNat v }
    else .stuck
  | .pop, _ :: ts => .next (c.advance ts)
  | .compute op, b :: a :: ts =>
    match op.compute? a b with
    | some v => .next (c.advance (v :: ts))
    | none => .dividesByZero
  | .negate, v :: ts => .next (c.advance (Word.wrap (-v) :: ts))
  | .jump target, ts => jump size target c ts
  | .jumpIfZero target, v :: ts => if v = 0 then jump size target c ts else .next (c.advance ts)
  | .call target, _ => enterCall size (arity target) target c
  | .giveBack arguments, v :: _ => leaveCall arguments v c
  | .enter locals, _ => reserve locals c
  | .print, v :: ts => .next { c.advance (v :: ts) with output := c.output ++ [Text.decimal v] }
  | .halt, _ => .halted
  | _, _ => .stuck

section Perform

variable {arity : Int → Nat} {size : Nat} {c : Config} {v : Int} {ts : List Int}

theorem perform_load {offset : Int} {cell : Activation.Cell}
    (h : c.activation.cell? offset = some cell) :
    c.perform arity size (.load offset) =
      .next (c.advance (c.activation.read cell :: c.activation.temps)) := by
  simp only [perform, h]

theorem perform_store {offset : Int} {cell : Activation.Cell}
    (h : c.activation.cell? offset = some cell) (hts : c.activation.temps = v :: ts) :
    c.perform arity size (.store offset) =
      .next { c.advance ts with activation := (c.activation.withTemps ts).write cell v } := by
  simp only [perform, h, hts]

theorem perform_loadGlobal {slot : Nat} (h : c.globals[slot]? = some v) :
    c.perform arity size (.loadGlobal slot) = .next (c.advance (v :: c.activation.temps)) := by
  have hlt : slot < c.globals.length := (List.getElem?_eq_some_iff.mp h).1
  simp [perform, hlt, (List.getElem?_eq_some_iff.mp h).2]

theorem perform_storeGlobal {slot : Nat} (h : slot < c.globals.length)
    (hts : c.activation.temps = v :: ts) :
    c.perform arity size (.storeGlobal slot) =
      .next { c.advance ts with globals := c.globals.set slot v } := by
  simp [perform, hts, h]

end Perform

/-- One step in a program. -/
def step (arity : Int → Nat) (p : Program) (c : Config) : Outcome :=
  match p.code[c.pc]? with
  | some i => c.perform arity p.size i.operation
  | none => .stuck

end Config

end StackLang
