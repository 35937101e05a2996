/-
ScriptMachine.Shapes — the layouts instances can have.
-/
import ScriptMachine.Names

namespace ScriptMachine

abbrev ShapeId := Nat

structure Shape where
  parent : Option ShapeId := none
  added : Option Symbol := none
  fields : List Symbol := []
  slots : Table Symbol Nat := []
  children : Table Symbol ShapeId := []
deriving Inhabited

structure Shapes where
  nodes : Array Shape := #[{}]

namespace Shapes

def root : ShapeId := 0

def size (shapes : Shapes) : Nat := shapes.nodes.size

def shape (shapes : Shapes) (id : ShapeId) : Shape := (shapes.nodes[id]?).getD {}

def fields (shapes : Shapes) (id : ShapeId) : List Symbol := (shapes.shape id).fields

def slot? (shapes : Shapes) (id : ShapeId) (field : Symbol) : Option Nat :=
  (shapes.shape id).slots.get? field

def extend (shapes : Shapes) (id : ShapeId) (field : Symbol) : ShapeId × Shapes :=
  let node := shapes.shape id
  if (node.slots.get? field).isSome then (id, shapes)
  else
    match node.children.get? field with
    | some child => (child, shapes)
    | none =>
      let child : Shape :=
        { parent := some id
          added := some field
          fields := node.fields ++ [field]
          slots := node.slots.insert field node.fields.length }
      let nodes := shapes.nodes.modify id fun n =>
        { n with children := n.children.insert field shapes.size }
      (shapes.size, { nodes := nodes.push child })

end Shapes

end ScriptMachine
