import TaggedScript.CommandLine

namespace TaggedScript.CommandLine

/-- The bytes of the script, or the reason why they cannot be read. -/
def readScript (file : Option String) : IO (Except String ByteArray) := do
  try
    match file with
    | some path => return .ok (← IO.FS.readBinFile path)
    | none => return .ok (← (← IO.getStdin).readBinToEnd)
  catch
    | .noFileOrDirectory .. => return .error "No such file or directory (os error 2)"
    | e => return .error (toString e)

/-- Does what the arguments ask for and yields the status to end with. -/
def perform (args : List String) : IO UInt32 := do
  let stderr ← IO.getStderr
  match Options.parse {} args with
  | .error message =>
    stderr.putStrLn s!"error: {message}"
    return 2
  | .ok options =>
    let script ← readScript options.file
    let response := respondBytes (← stderr.isTty) options script
    (← IO.getStdout).putStr response.stdout
    stderr.putStr response.stderr
    return response.status.toUInt32

end TaggedScript.CommandLine

def main (args : List String) : IO UInt32 := TaggedScript.CommandLine.perform args
