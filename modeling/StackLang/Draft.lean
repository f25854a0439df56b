import StackLang.Program
import StackLang.Scope

/-!
# Drafts of code

Code before addresses are known: jumps say how far they go and calls say what they call, so a draft
does not depend on where it will stand. `link` puts the addresses in.
-/

namespace StackLang

namespace Draft

/-- What a drafted instruction does. -/
inductive Action where
  /-- An operation that needs no address. -/
  | fixed (operation : Operation)
  /-- A jump over a distance counted from the jump itself. -/
  | jump (distance : Int)
  /-- A jump over a distance if the top word is zero. -/
  | jumpIfZero (distance : Int)
  /-- A call by name; `missing` is the target if nothing has the name. -/
  | call (callee : String) (missing : Int)
deriving DecidableEq

end Draft

/-- A drafted instruction. -/
structure Draft where
  action : Draft.Action
  label : Option String := none
  comment : Option String := none
deriving DecidableEq

namespace Draft

/-- The operation of an action at an address, given the entries of the functions. -/
def Action.operation (entries : List (String × Nat)) (address : Nat) : Action → Operation
  | fixed operation => operation
  | jump distance => .jump (address + distance)
  | jumpIfZero distance => .jumpIfZero (address + distance)
  | call callee missing => .call (((entries.lookup callee).map Int.ofNat).getD missing)

/-- The instructions of a draft from an address on, with or without comments. -/
def link (comments : Bool) (entries : List (String × Nat)) (address : Nat) :
    List Draft → List Instruction
  | [] => []
  | d :: ds =>
    { operation := d.action.operation entries address, label := d.label,
      comment := if comments then d.comment else none } :: link comments entries (address + 1) ds

/-- An operation with a comment. -/
def of (operation : Operation) (comment : String) : Draft :=
  { action := .fixed operation, comment := some comment }

/-- An operation without a comment. -/
def bare (operation : Operation) : Draft := { action := .fixed operation }

/-- A zero in the place of a value that there is not. -/
def placeholder : Draft := of (.push 0) "placeholder"

/-- Pushes the word at a place. -/
def load (place : Place) (comment : String) : Draft :=
  match place with
  | .global slot => of (.loadGlobal slot) comment
  | .frame offset => of (.load offset) comment

/-- Pops a word into a place. -/
def store (place : Place) (comment : String) : Draft :=
  match place with
  | .global slot => of (.storeGlobal slot) comment
  | .frame offset => of (.store offset) comment

@[simp] theorem length_link (comments : Bool) (entries : List (String × Nat)) (address : Nat)
    (ds : List Draft) : (link comments entries address ds).length = ds.length := by
  induction ds generalizing address with
  | nil => rfl
  | cons d ds ih => simp [link, ih]

/-- Code after other code is linked at the address that follows it. -/
theorem link_append (comments : Bool) (entries : List (String × Nat)) (address : Nat)
    (ds es : List Draft) :
    link comments entries address (ds ++ es) =
      link comments entries address ds ++ link comments entries (address + ds.length) es := by
  induction ds generalizing address with
  | nil => rfl
  | cons d ds ih =>
    have hadd : address + 1 + ds.length = address + (ds.length + 1) := by omega
    simp [link, ih, hadd]

end Draft

end StackLang
