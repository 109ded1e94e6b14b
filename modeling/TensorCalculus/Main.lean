import TensorCalculus.Layout.Command

/-!
# Command line

Reads type strings from standard input, one a line, and prints their layout.
-/

namespace TensorCalculus

/-- Reads the stream to its end. -/
partial def readAll (stream : IO.FS.Stream) (read : ByteArray) : IO ByteArray := do
  let chunk ← stream.read 65536
  if chunk.isEmpty then return read
  readAll stream (read ++ chunk)

end TensorCalculus

open TensorCalculus in
def main (arguments : List String) : IO UInt32 := do
  let input ← readAll (← IO.getStdin) ByteArray.empty
  match Layout.run arguments input.toList with
  | .ok report =>
    (← IO.getStdout).putStr report.output
    (← IO.getStderr).putStr report.diagnostics
    return UInt32.ofNat report.code
  | .error _ =>
    (← IO.getStderr).putStr "Error: the indentation is too wide\n"
    return 101
