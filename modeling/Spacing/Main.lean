import Spacing.CommandLine.Program

namespace Spacing

def describe : IO.Error → String
  | .noFileOrDirectory _ code text | .interrupted _ code text
  | .alreadyExists _ code text | .invalidArgument _ code text
  | .permissionDenied _ code text | .resourceExhausted _ code text
  | .inappropriateType _ code text | .noSuchThing _ code text
  | .otherError code text | .resourceBusy code text | .resourceVanished code text
  | .unsupportedOperation code text | .hardwareFault code text
  | .unsatisfiedConstraints code text | .illegalOperation code text
  | .protocolError code text | .timeExpired code text =>
    text ++ " (os error " ++ toString code.toNat ++ ")"
  | .unexpectedEof => "unexpected end of file"
  | .userError text => text

def attempt {β : Type} (action : IO β) : IO (Except String β) := do
  return (← action.toBaseIO).mapError describe

partial def readAll (stream : IO.FS.Stream) (content : ByteArray) : IO ByteArray := do
  let chunk ← stream.read 65536
  if chunk.isEmpty then return content else readAll stream (content ++ chunk)

def machineAtHand : Host IO where
  readInput := attempt do readAll (← IO.getStdin) ByteArray.empty
  readFile path := attempt do (← IO.FS.Handle.mk path .read).readBinToEnd
  writeFile path text := attempt do (← IO.FS.Handle.mk path .write).putStr text
  print text := do (← IO.getStdout).putStr text
  printError text := do (← IO.getStderr).putStr text
  setting name := IO.getEnv name

end Spacing

def main (args : List String) : IO UInt32 :=
  Spacing.Program.run Spacing.machineAtHand args
