import TermText.Cli.Run

/-!
# The program

The command line program on the files and the standard streams of the machine.
-/

namespace TermText

/-- The condition that an error of the machine reports. -/
def FileCondition.ofError : IO.Error → FileCondition
  | .noFileOrDirectory .. => .notFound
  | .alreadyExists .. => .fileExists
  | .inappropriateType _ 20 _ => .notADirectory
  | .inappropriateType _ 21 _ => .isADirectory
  | .invalidArgument _ 36 _ => .nameTooLong
  | .permissionDenied _ code _ => .other code.toNat "Permission denied"
  | .resourceExhausted _ 28 _ => .noSpace
  | e => .other 5 (Text.ofString (toString e))

/-- An operation of the machine on the file at a path. -/
def onFile {α : Type} (path : Text) (operation : String → IO α) : IO (Except FileError α) := do
  try
    let a ← operation path.toString
    return .ok a
  catch e => return .error ⟨.ofError e, path⟩

/-- All octets of a stream after those read already. -/
partial def readAll (stream : IO.FS.Stream) (octets : ByteArray) : IO ByteArray := do
  let more ← stream.read 65536
  if more.isEmpty then return octets else readAll stream (octets ++ more)

/-- The machine as a host. What was refused and is held back is remembered until the file is
closed. -/
def machine (refused : IO.Ref (Option FileError)) : Host IO where
  input := do
    let octets ← readAll (← IO.getStdin) .empty
    return (Utf8.decode octets.toList).map Text.unifyNewlines
  present path := do
    return .ok (← (← IO.FS.realPath path.toString).pathExists)
  isDirectory path := do
    (← IO.FS.realPath path.toString).isDir
  read path := onFile path fun p => do
    return (← IO.FS.readBinFile p).toList
  openFile path := onFile path fun p => IO.FS.writeBinFile p .empty
  fill path octets := do
    let result ← onFile path fun p => IO.FS.withFile p .write fun handle => do
      handle.write (.mk octets.toArray)
      handle.flush
    if let .error e := result then
      if octets.length ≤ Host.bufferSize then refused.set (some e)
    return result
  close _ _ := do
    match ← refused.get with
    | some e => return .error e
    | none => return .ok ()
  makeDirectory path := onFile path fun p => IO.FS.createDir p

end TermText

/-- Runs the program with the words of the command line. -/
def main (arguments : List String) : IO UInt32 := do
  let host := TermText.machine (← IO.mkRef none)
  let outcome ← TermText.Cli.run host (arguments.map TermText.Text.ofString)
  (← IO.getStdout).putStr outcome.output.toString
  (← IO.getStderr).putStr outcome.errors.toString
  match outcome.code with
  | .ok code => return code.toUInt32
  | .error e => throw (IO.userError e.message.toString)
