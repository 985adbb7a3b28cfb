import SyntaxPack.Tree.Basic
/-!
# SyntaxPack.Tree.Equality

Two ways in which trees are equal.

`Tree.structuralEq` compares what two trees stand for: node ids do not matter,
a shared node equals two equal copies, numbers are compared bit for bit and a
field that is not set equals null. A pair of nodes whose comparison has begun is
taken to be equal, so the comparison ends on cyclic trees too.

`Tree.identical` compares the arenas themselves, node by node and field by
field, with numbers compared numerically.
-/

namespace SyntaxPack

namespace Tree

/-! ### Equal up to sharing -/

/-- The pairs of nodes whose comparison has begun. -/
abbrev Compared := List (NodeId × NodeId)

/-- Compares a list of pairs of values in order. -/
def compareAll (compare : Compared → Value × Value → Option Compared) (compared : Compared)
    (pairs : List (Value × Value)) : Option Compared :=
  pairs.foldlM compare compared

/-- The pairs of values that two nodes must agree on, none if the nodes differ by
themselves. Two objects must agree on every field that one of them sets. -/
def matchNodes : Option Node → Option Node → Option (List (Value × Value))
  | some (.array left), some (.array right) =>
    if left.length = right.length then some (left.zip right) else none
  | some (.object left), some (.object right) =>
    if left.shape = right.shape then
      some ((left.fields ++ right.fields).map fun (name, _) => (left.get name, right.get name))
    else none
  | _, _ => none

/-- Compares a value of tree `a` with one of tree `b`. The result is the pairs of
nodes compared so far, or none if a difference was found. At most `depth` pairs
are compared inside one another; since each is another pair, the number of pairs
is room enough. -/
def compareWithin (a b : Tree) : Nat → Compared → Value × Value → Option Compared
  | depth, compared, (left, right) =>
    match left, right with
    | .array x, .array y | .object x, .object y =>
      if compared.contains (x, y) then some compared
      else
        match depth with
        | 0 => none
        | depth + 1 => do
          let pairs ← matchNodes (a.node? x) (b.node? y)
          compareAll (compareWithin a b depth) ((x, y) :: compared) pairs
    | .array _, _ | .object _, _ => none
    | left, right => if left = right then some compared else none

/-- Whether a value of tree `a` and one of tree `b` stand for the same. -/
def valuesEq (a : Tree) (left : Value) (b : Tree) (right : Value) : Bool :=
  (compareWithin a b (a.size * b.size + 1) [] (left, right)).isSome

/-- Whether two trees stand for the same. -/
def structuralEq (a b : Tree) : Bool := valuesEq a a.root b b.root

/-! ### Equal as arenas -/

/-- Whether two values are equal, numbers compared numerically. -/
def sameValue : Value → Value → Bool
  | .number x, .number y => x.numericEq y
  | x, y => x = y

/-- Whether two lists of values are equal place by place. -/
def sameValues : List Value → List Value → Bool
  | [], [] => true
  | x :: xs, y :: ys => sameValue x y && sameValues xs ys
  | _, _ => false

/-- Whether two nodes are equal, the order of fields included. -/
def sameNode : Node → Node → Bool
  | .array xs, .array ys => sameValues xs ys
  | .object x, .object y =>
    x.shape = y.shape && x.fields.map (·.1) = y.fields.map (·.1) &&
      sameValues (x.fields.map (·.2)) (y.fields.map (·.2))
  | _, _ => false

/-- Whether two arenas are equal node by node, and their roots. -/
def identical (a b : Tree) : Bool :=
  a.size = b.size && (a.nodes.toList.zip b.nodes.toList).all (fun (x, y) => sameNode x y) &&
    sameValue a.root b.root

end Tree

end SyntaxPack
