import SyntaxPack.Tree.Basic
/-!
# SyntaxPack.Tree.Cycle

Finding reference cycles.

`Tree.findCycle` walks the arena depth first, from every node in turn. A node is
*open* while its children are walked and *closed* after that. A reference to an
open node closes a cycle; closed nodes lead to none and are not walked again, so
the walk takes time in the number of references and shared nodes are no cycles.
-/

namespace SyntaxPack

namespace Tree

/-- How far the walk is with a node. -/
inductive Mark where
  /-- Not reached yet. -/
  | unseen
  /-- Its children are being walked. -/
  | opened
  /-- It and everything below it are walked, without a cycle. -/
  | closed
  deriving DecidableEq, Repr, Inhabited

/-- The mark of every node. -/
abbrev Marks := Array Mark

/-- Walks a node and what it refers to. At most `depth` nodes are open below this
one; since every open node is another one, the number of nodes is room enough.
The result is the marks after the walk, or a node on a cycle. -/
def walkFrom (tree : Tree) : Nat → Marks → NodeId → Except NodeId Marks
  | 0, marks, _ => .ok marks
  | depth + 1, marks, id =>
    match marks[id.index]?, tree.node? id with
    | some .opened, _ => .error id
    | some .unseen, some node => do
      let marks ← node.references.foldlM (walkFrom tree depth) (marks.set! id.index .opened)
      .ok (marks.set! id.index .closed)
    | _, _ => .ok marks

/-- The ids of all nodes. -/
def ids (tree : Tree) : List NodeId := (List.range tree.size).map NodeId.mk

/-- A node that is reachable from itself, if there is one. References that lead
out of the arena are skipped. -/
def findCycle (tree : Tree) : Option NodeId :=
  match tree.ids.foldlM (walkFrom tree (tree.size + 1)) (Array.replicate tree.size .unseen) with
  | .ok _ => none
  | .error id => some id

end Tree

end SyntaxPack
