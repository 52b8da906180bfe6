/-
  Harvest.Main — the program on a disk and a terminal.
-/

import Harvest.Command.Run

namespace Harvest

/-- The error that the system reports by its number. -/
def FileError.ofIOError : IO.Error → FileError
  | .noFileOrDirectory .. => .notFound
  | .inappropriateType _ 20 _ => .notDirectory
  | .inappropriateType .. => .isDirectory
  | .invalidArgument _ 36 _ => .nameTooLong
  | .permissionDenied _ code details => .other (details ++ " (os error " ++ toString code ++ ")")
  | e => .other (toString e)

/-- The operations on the files of the disk. -/
def diskFiles : Files IO where
  read path := do
    try return .ok (← (← IO.FS.Handle.mk path .read).readBinToEnd)
    catch e => return .error (.ofIOError e)
  write path content := do
    try (← IO.FS.Handle.mk path .write).write content; return .ok ()
    catch e => return .error (.ofIOError e)

end Harvest

def main (args : List String) : IO UInt32 := do
  let answer ← Harvest.run Harvest.diskFiles args
  (← IO.getStderr).putStr answer.stderr
  (← IO.getStdout).putStr answer.stdout
  return answer.status.toUInt32
