/-
ScriptMachine.Machine.Inline — operators on plain numbers, as lowered
code computes them in place.
-/
import ScriptMachine.Number.Binary
import ScriptMachine.Tree.Operator
import ScriptMachine.Word.Basic

namespace ScriptMachine.Inline

def condition : BinaryOp → Number.Condition
  | .equal => .equal
  | .notEqual => .notEqual
  | .less => .less
  | .lessEqual => .lessEqual
  | .greater => .greater
  | _ => .greaterEqual

def binary (op : BinaryOp) (a b : UInt64) : Word :=
  match op with
  | .add => ⟨Number.add a b⟩
  | .subtract => ⟨Number.sub a b⟩
  | .multiply => ⟨Number.mul a b⟩
  | .divide => ⟨Number.div a b⟩
  | comparison => .ofFlag ((condition comparison).admits (Number.relate a b))

end ScriptMachine.Inline
