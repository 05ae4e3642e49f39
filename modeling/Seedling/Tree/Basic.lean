import Seedling.Source.Position

/-!
Parse trees: a node for each rule that was applied, a leaf for each terminal that was matched. The
symbol of a node is the name of its rule; a leaf's symbol describes the terminal.
-/

namespace Seedling

inductive ParseTree where
  | node (symbol : String) (children : List ParseTree)
  | leaf (symbol text : String) (position : Source.Position)

namespace ParseTree

instance : Inhabited ParseTree := ⟨.node "" []⟩

def symbol : ParseTree → String
  | .node symbol _ => symbol
  | .leaf symbol _ _ => symbol

def children : ParseTree → List ParseTree
  | .node _ children => children
  | .leaf .. => []

def isLeaf : ParseTree → Bool
  | .node .. => false
  | .leaf .. => true

mutual

/-- The leaves, from left to right. -/
def leaves : ParseTree → List (String × String × Source.Position)
  | .leaf symbol text position => [(symbol, text, position)]
  | .node _ children => forestLeaves children

def forestLeaves : List ParseTree → List (String × String × Source.Position)
  | [] => []
  | tree :: rest => tree.leaves ++ forestLeaves rest

end

/-- The texts of all leaves, joined. -/
def text (tree : ParseTree) : String := String.join (tree.leaves.map fun l => l.2.1)

/-- Where the first leaf starts. -/
def position? (tree : ParseTree) : Option Source.Position := tree.leaves.head?.map fun l => l.2.2

/-- The first child with a symbol. -/
def child? (tree : ParseTree) (symbol : String) : Option ParseTree :=
  tree.children.find? fun c => c.symbol = symbol

mutual

def nodeCount : ParseTree → Nat
  | .leaf .. => 0
  | .node _ children => forestNodeCount children + 1

def forestNodeCount : List ParseTree → Nat
  | [] => 0
  | tree :: rest => tree.nodeCount + forestNodeCount rest

end

/-- The number of nodes and leaves. -/
def size (tree : ParseTree) : Nat := tree.nodeCount + tree.leaves.length

mutual

/-- The number of levels; a lone leaf has one. -/
def height : ParseTree → Nat
  | .leaf .. => 1
  | .node _ children => forestHeight children + 1

def forestHeight : List ParseTree → Nat
  | [] => 0
  | tree :: rest => max tree.height (forestHeight rest)

end

mutual

/-- Every subtree with its depth, each before its children. -/
def preorder (depth : Nat) : ParseTree → List (Nat × ParseTree)
  | .leaf symbol text position => [(depth, .leaf symbol text position)]
  | .node symbol children => (depth, .node symbol children) :: forestPreorder (depth + 1) children

def forestPreorder (depth : Nat) : List ParseTree → List (Nat × ParseTree)
  | [] => []
  | tree :: rest => preorder depth tree ++ forestPreorder depth rest

end

/-- What a walk over a tree comes by. -/
inductive Visit where
  | enter (symbol : String) (children : Nat)
  | leave (symbol : String) (children : Nat)
  | leaf (symbol text : String) (position : Source.Position)

mutual

/-- A walk in document order. The children of a node are visited only if `descend` holds of its
symbol; the node is left in any case. -/
def walk (descend : String → Bool) : ParseTree → List Visit
  | .leaf symbol text position => [.leaf symbol text position]
  | .node symbol children =>
      .enter symbol children.length ::
        ((if descend symbol then forestWalk descend children else []) ++
          [.leave symbol children.length])

def forestWalk (descend : String → Bool) : List ParseTree → List Visit
  | [] => []
  | tree :: rest => walk descend tree ++ forestWalk descend rest

end

end ParseTree

end Seedling
