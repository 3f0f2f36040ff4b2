import QuadIndex.Console.Run

/-! The command line program. -/

open QuadIndex

/-- The words of the operating system for a failure to read a file. -/
def failureText : IO.Error → String
  | .noFileOrDirectory .. => "No such file or directory (os error 2)"
  | .permissionDenied .. => "Permission denied (os error 13)"
  | .inappropriateType .. => "Is a directory (os error 21)"
  | e => toString e

/-- Reads a file as far as that is possible. -/
def readBytes (path : String) : IO (Except String Bytes) := do
  try
    let bytes ← IO.FS.readBinFile path
    return .ok bytes.toList
  catch e => return .error (failureText e)

def main (args : List String) : IO UInt32 := do
  let names := [Settings.indexesVariable, Settings.contextVariable, Verbosity.variableName]
  let values ← names.mapM fun name => (IO.getEnv name : IO (Option String))
  let lookup (name : String) : Option String := ((names.zip values).lookup name).bind id
  let contents ←
    match Arguments.parse args with
    | .ok a => readBytes a.path
    | .error _ => pure (.ok [])
  let result := Console.run args ⟨lookup, fun _ => contents⟩
  for record in result.log do
    IO.eprintln record.text
  IO.print result.output
  return UInt32.ofNat result.code
