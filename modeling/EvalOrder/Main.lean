import EvalOrder.Command

/-! The command line: the file named by the first argument is planned, or the built-in expression. -/
namespace EvalOrder

def unreadableOf : IO.Error → Unreadable
  | .alreadyExists _ code details | .interrupted _ code details
  | .noFileOrDirectory _ code details | .invalidArgument _ code details
  | .permissionDenied _ code details | .resourceExhausted _ code details
  | .inappropriateType _ code details | .noSuchThing _ code details
  | .otherError code details | .resourceBusy code details | .resourceVanished code details
  | .unsupportedOperation code details | .hardwareFault code details
  | .unsatisfiedConstraints code details | .illegalOperation code details
  | .protocolError code details | .timeExpired code details =>
    .system code.toNat details.toList
  | other => .other other.toString.toList

def load : List String → IO Input
  | [] => return .builtIn
  | path :: _ => do
    try
      let file ← IO.FS.Handle.mk path .read
      let bytes ← file.readBinToEnd
      return .contents bytes.toList
    catch error => return .unreadable (unreadableOf error)

end EvalOrder

def main (arguments : List String) : IO UInt32 := do
  let input ← IO.getStdin
  let waits ← input.isTty
  -- the renderer is right for expressions without a line break inside them
  let outcome := EvalOrder.Command.run EvalOrder.Report.oneLine
    (if waits then .terminal id else .piped) (← EvalOrder.load arguments)
  for line in outcome.complaint do
    IO.eprintln (String.ofList line.coloured)
  IO.print (String.ofList outcome.output)
  if waits && outcome.code != 0 then
    (← IO.getStdout).flush
    discard input.getLine
  return outcome.code.toUInt32
