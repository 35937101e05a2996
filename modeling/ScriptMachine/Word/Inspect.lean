/-
ScriptMachine.Word.Inspect — words, handles and encoding errors in
diagnostics.
-/
import ScriptMachine.Word.Basic
import ScriptMachine.Number.Shortest

namespace ScriptMachine

def Handle.inspect (h : Handle) : String :=
  if h.generation = 0 then "#" ++ toString h.index
  else "#" ++ toString h.index ++ "@" ++ toString h.generation

def Word.inspect (w : Word) : String :=
  match w.tag with
  | .number => "Number(" ++ Number.inspect w.bits ++ ")"
  | .bool => if w.bits &&& 1 == 1 then "Bool(true)" else "Bool(false)"
  | .nil => "Nil"
  | .object => "Object(" ++ Handle.inspect ⟨w.payload⟩ ++ ")"

def EncodingError.message : EncodingError → String
  | .mismatch expected found =>
    "type mismatch: expected " ++ expected.name ++ ", found " ++ found.name
  | .payloadOverflow raw =>
    "object handle 0x" ++ String.ofList (Nat.toDigits 16 raw.toNat) ++
      " does not fit the 48-bit payload"

end ScriptMachine
