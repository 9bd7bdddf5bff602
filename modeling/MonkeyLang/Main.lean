import MonkeyLang.CommandLine

/-! The program: reads files and lines, and prints. -/

namespace MonkeyLang.CommandLine

/-- What the system says of a failure. -/
def systemCause : IO.Error → String
  | .noFileOrDirectory _ code details | .invalidArgument _ code details
  | .permissionDenied _ code details | .inappropriateType _ code details
  | .resourceExhausted _ code details | .noSuchThing _ code details
  | .hardwareFault code details | .otherError code details =>
    details ++ " (os error " ++ toString code ++ ")"
  | e => toString e

def readFile (path : String) : IO (Except FileError ByteArray) := do
  match ← (IO.FS.Handle.mk path .read).toBaseIO with
  | .error e => return .error (.notOpened (systemCause e))
  | .ok handle =>
    match ← handle.readBinToEnd.toBaseIO with
    | .error e => return .error (.notRead (systemCause e))
    | .ok contents => return .ok contents

/-- Reads up to and including a line feed, or to the end of the input. -/
partial def readLine (input : IO.FS.Stream) (acc : ByteArray := .empty) : IO ByteArray := do
  let b ← input.read 1
  if b.isEmpty then return acc
  else if b[0]? == some 10 then return acc ++ b
  else readLine input (acc ++ b)

/-- Runs the lines of the standard input one by one. -/
partial def interact (input output : IO.FS.Stream) (r : Repl) : IO Report := do
  output.putStr Repl.prompt
  output.flush
  let bytes ← readLine input
  match Text.lines bytes.data.toList with
  | [] => return { log := r.session.store.log }
  | line :: _ =>
    match String.fromUTF8? ⟨line.toArray⟩ with
    | none => return { Report.fault Repl.notText.message none with log := r.session.store.log }
    | some source =>
      match r.line callLimit source with
      | none => throw (.userError "calls nest too deep")
      | some (printed, r) =>
        output.putStr printed
        interact input output r

def carryOut (i : Invocation) : IO Report := do
  match i.command.file? with
  | none =>
    let output ← IO.getStdout
    output.putStr Repl.banner
    interact (← IO.getStdin) output (.start (.ofLevel i.level))
  | some file =>
    let contents ← readFile file
    match execute callLimit (fun _ => contents) .empty i with
    | some report => return report
    | none => throw (.userError "calls nest too deep")

def writeLog (log : Log) : IO Unit :=
  IO.FS.writeFile "app.log" <| String.join <| log.entries.toList.map fun e =>
    "[" ++ e.component.name ++ "] " ++ e.level.name ++ " - " ++ e.message ++ "\n"

/-- Runs the program; gives its exit status. -/
def start (args : List String) : IO UInt32 := do
  match Invocation.ofArgs? args with
  | none =>
    IO.eprint usage
    return 2
  | some i =>
    if i.log then writeLog {}
    let report ← carryOut i
    if i.log then writeLog report.log
    IO.print report.stdout
    IO.eprint report.stderr
    return report.exit.toUInt32

end MonkeyLang.CommandLine

def main (args : List String) : IO UInt32 := MonkeyLang.CommandLine.start args
