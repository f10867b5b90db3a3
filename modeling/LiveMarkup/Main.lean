import LiveMarkup.CommandLine.Run

namespace LiveMarkup

def readFileResult (path : String) : IO (Except ReadError String) := do
  try
    let bytes ← IO.FS.readBinFile path
    match String.fromUTF8? bytes with
    | some text => return .ok text
    | none => return .error .notText
  catch e =>
    match e with
    | .noFileOrDirectory .. => return .error .notFound
    | .inappropriateType .. => return .error .isDirectory
    | e => return .error (.other (toString e))

end LiveMarkup

open LiveMarkup in
def main (args : List String) : IO UInt32 := do
  let contents ← (CommandLine.filesNeeded args).mapM fun path => do
    return (path, ← readFileResult path)
  let files : Files := fun path => ((contents.find? fun c => c.1 == path).map (·.2)).getD
    (.error .notFound)
  let result := CommandLine.run files args
  IO.print result.output
  IO.eprint result.errors
  return result.code.toUInt32
