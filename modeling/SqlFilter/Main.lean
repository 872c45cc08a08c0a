import SqlFilter.Console

/-!
# The command line

The console over standard input and output, with the settings from a file in the working directory.
-/

namespace SqlFilter

/-- The file that settings are taken from. -/
def settingsPath : String := "query_compiler.json"

def Settings.File.find (path : String) : IO Settings.File := do
  try
    return .bytes (← IO.FS.readBinFile path)
  catch e =>
    match e with
    | .noFileOrDirectory .. => return .absent
    | _ => return .unreadable

/-- Answers the lines of standard input one by one. -/
partial def Console.loop (stdin stdout : IO.FS.Stream) (c : Console) : IO UInt32 := do
  let line ← stdin.getLine
  if line.isEmpty then return 0
  let (out, next) := c.step line
  stdout.putStr out
  stdout.flush
  match next with
  | .proceed c => c.loop stdin stdout
  | .exit code => return code

end SqlFilter

open SqlFilter in
def main : IO UInt32 := do
  let file ← Settings.File.find settingsPath
  let stdout ← IO.getStdout
  stdout.putStr Console.greeting
  (Console.start file).loop (← IO.getStdin) stdout
