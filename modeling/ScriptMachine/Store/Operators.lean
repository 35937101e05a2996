/-
ScriptMachine.Store.Operators — operators on words of any kind.
-/
import ScriptMachine.Store.Render

namespace ScriptMachine

def arithmetic (op : BinaryOp) (a b : UInt64) : Word :=
  match op with
  | .add => ⟨Number.add a b⟩
  | .subtract => ⟨Number.sub a b⟩
  | .multiply => ⟨Number.mul a b⟩
  | .divide => ⟨Number.div a b⟩
  | .equal => .ofBool (Number.equal a b)
  | .notEqual => .ofBool !(Number.equal a b)
  | .less => .ofBool (Number.less a b)
  | .lessEqual => .ofBool (Number.atMost a b)
  | .greater => .ofBool (Number.less b a)
  | .greaterEqual => .ofBool (Number.atMost b a)

namespace Store

def valuesEqual (s : Store) (left right : Word) : Bool :=
  if left.isNumber && right.isNumber then Number.equal left.bits right.bits
  else if left = right then true
  else
    match s.heap.text? left, s.heap.text? right with
    | some a, some b => a == b
    | _, _ => false

def concatenate (s : Store) (left right : Word) : Except Failure Word × Store :=
  if (s.heap.text? left).isSome || (s.heap.text? right).isSome then
    s.alloc (.text (s.render left ++ s.render right))
  else (.error (.operands .add left.tag right.tag), s)

def binary (s : Store) (op : BinaryOp) (left right : Word) : Except Failure Word × Store :=
  match op with
  | .equal => (.ok (.ofBool (s.valuesEqual left right)), s)
  | .notEqual => (.ok (.ofBool !(s.valuesEqual left right)), s)
  | op =>
    if left.isNumber && right.isNumber then (.ok (arithmetic op left.bits right.bits), s)
    else if op = .add then s.concatenate left right
    else (.error (.operands op left.tag right.tag), s)

def negate (operand : Word) : Except Failure Word :=
  if operand.isNumber then .ok (.ofNumber (Number.flipSign operand.bits))
  else .error (.operand operand.tag)

end Store

end ScriptMachine
