import StackLang.Tree

/-!
# Drawings of trees

The label of a node, its short form, and the drawing of a tree with one line for every node.
-/

namespace StackLang.Tree

/-- The short form of a node: its kind with its text, or with the number of its children. -/
def shown (t : Tree) : String :=
  match t.value with
  | some value => t.kind.name ++ "(" ++ Text.quoted value ++ ")"
  | none => t.kind.name ++ "[" ++ Text.decimal t.children.length ++ "]"

/-- The kind, the text and the attributes of a node. -/
def label (t : Tree) : String :=
  let text := match t.value with
    | some value => "('" ++ value ++ "')"
    | none => ""
  let attributes :=
    if t.attributes.isEmpty then ""
    else " \x7b" ++ ", ".intercalate (t.attributes.map fun a => a.1 ++ "=" ++ a.2) ++ "\x7d"
  t.kind.name ++ text ++ attributes

mutual

/-- The lines below a node that is drawn after `margin`. -/
def drawChildren (margin : String) : Tree → List String
  | ⟨_, _, _, children, _⟩ => drawAll margin children

/-- The lines of siblings and all that is below them. -/
def drawAll (margin : String) : List Tree → List String
  | [] => []
  | t :: ts =>
    let (branch, bar) := if ts.isEmpty then ("└── ", "    ") else ("├── ", "│   ")
    (margin ++ branch ++ t.label) :: (drawChildren (margin ++ bar) t ++ drawAll margin ts)

end

/-- The lines of the drawing of a tree. -/
def drawing (t : Tree) : List String := t.label :: drawChildren "" t

/-- The drawing of a tree. -/
def pretty (t : Tree) : String := "\n".intercalate t.drawing

end StackLang.Tree
