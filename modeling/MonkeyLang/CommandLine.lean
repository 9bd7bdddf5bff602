import MonkeyLang.Repl
import MonkeyLang.Syntax.Encoding
import MonkeyLang.Text.Quoted

/-! The command line: what the arguments ask for, and what is printed for it. -/

namespace MonkeyLang

namespace CommandLine

inductive Command where
  /-- Lists the tokens of a file, or writes them as JSON. -/
  | tokenize (file : String) (json : Bool)
  /-- Prints the tree of a file, as text or as JSON. -/
  | parse (file : String) (json : Bool)
  /-- Runs a file and prints its value. -/
  | run (file : String)
  | repl
deriving DecidableEq, Repr, Inhabited

/-- What a process was started for. `log` asks for a log of the work. -/
structure Invocation where
  command : Command
  log : Bool := false
deriving DecidableEq, Repr, Inhabited

/-- A log is kept in full, apart from the smallest steps. -/
def Invocation.level (i : Invocation) : Log.Level := if i.log then .debug else .off

def usage : String :=
  "Usage: monkey [--log] [tokenize FILE [--json] | parse FILE [--json] | run FILE | repl]\n"

/-- Options start with a dash; a dash alone is a word. -/
def isOption (arg : String) : Bool := arg.startsWith "-" && arg != "-"

/-- The invocation that some arguments spell, if they spell one. Options may stand anywhere, but
whatever follows `--` is a word. -/
def Invocation.ofArgs? (args : List String) : Option Invocation :=
  let (options, words) := (args.takeWhile (· != "--")).partition isOption
  let words := words ++ (args.dropWhile (· != "--")).drop 1
  let json := options.contains "--json"
  let log := options.contains "--log"
  if words.contains "" || options.any fun o => o != "--json" && o != "--log" then none
  else
    match words, json with
    | ["tokenize", file], json => some ⟨.tokenize file json, log⟩
    | ["parse", file], json => some ⟨.parse file json, log⟩
    | ["run", file], false => some ⟨.run file, log⟩
    | ["repl"], false | [], false => some ⟨.repl, log⟩
    | _, _ => none

/-- The file that a command reads. -/
def Command.file? : Command → Option String
  | tokenize file _ | parse file _ | run file => some file
  | repl => none

/-- Why a file could not be read, with the cause that the system gave. -/
inductive FileError where
  | notOpened (cause : String)
  | notRead (cause : String)
deriving DecidableEq, Repr, Inhabited

/-- What a process prints and the status it ends with. -/
structure Report where
  exit : Nat := 0
  stdout : String := ""
  stderr : String := ""
  log : Log := {}
deriving Inhabited

/-- The report of a fault that ends the process, with what was the matter and why. -/
def Report.fault (context : String) (cause : Option String) : Report :=
  { exit := 1
    stderr := "Error: " ++ context ++ "\n" ++
      (cause.map fun c => "\nCaused by:\n    " ++ c ++ "\n").getD "" }

def unlines (ls : List String) : String := String.join (ls.map (· ++ "\n"))

/-- The text of a file, or the report that it has none. -/
def text (file : String) : Except FileError ByteArray → Except Report String
  | .error (.notOpened cause) =>
    .error (.fault ("Failed to open file " ++ Text.quoted file) cause)
  | .error (.notRead cause) => .error (.fault ("Failed to read file " ++ Text.quoted file) cause)
  | .ok bytes =>
    match Text.decodeUtf8 bytes with
    | .ok source => .ok source
    | .error e =>
      .error (.fault ("File " ++ Text.quoted file ++ " is not valid UTF-8") (some e.message))

def tokenizeText (json : Bool) (log : Log) (source : String) : Report :=
  let lexer := Lexer.ofString source
  let log := lexer.lexemes.foldl (fun log l => l.record log) (lexer.recordStart log)
  let log := Lexer.recordEnd lexer.size log
  let stdout :=
    if json then (Json.array (lexer.rest.map (·.toJson))).pretty ++ "\n"
    else unlines (lexer.rest.map (·.display))
  { stdout, log }

def parseText (json : Bool) (log : Log) (source : String) : Report :=
  let (program, p) := (Parser.ofLexer (.ofString source) log).program
  if p.errors.isEmpty then
    { stdout := (if json then program.toJson.pretty else program.render) ++ "\n", log := p.log }
  else
    { exit := 65, stderr := unlines (p.errors.toList.map (·.message)), log := p.log }

/-- Runs a text in a session of its own, with calls nested at most `n` deep. -/
def runText (n : Nat) (log : Log) (source : String) : Option Report := do
  let (scope, s) := (Session.newScope { store := { log } })
  let (outcome, s) ← s.run n scope source
  let exit := outcome.exitCode
  let log := s.store.log
  match outcome with
  | .ok v =>
    if exit = 0 then pure { stdout := v.render ++ "\n", log }
    else pure { exit, stderr := v.render ++ "\n", log }
  | .error (.parse messages) => pure { exit, stderr := unlines messages, log }
  | .error f => pure { Report.fault f.message none with log }

def runRepl (n : Nat) (log : Log) (stdin : ByteArray) : Option Report := do
  let (out, fault, s) ← Repl.run n stdin { store := { log } }
  let log := s.store.log
  let stdout := Repl.banner ++ out
  match fault with
  | none => pure { stdout, log }
  | some f => pure { Report.fault f.message none with stdout, log }

end CommandLine

open CommandLine in
/-- Carries out an invocation, with calls nested at most `n` deep. `read` gives the bytes of a
file. -/
def CommandLine.execute (n : Nat) (read : String → Except FileError ByteArray) (stdin : ByteArray)
    (i : Invocation) : Option Report :=
  let log : Log := { level := i.level }
  let withText (file : String) (f : String → Option Report) : Option Report :=
    match text file (read file) with
    | .ok source => f source
    | .error report => some report
  match i.command with
  | .tokenize file json => withText file fun source => some (tokenizeText json log source)
  | .parse file json => withText file fun source => some (parseText json log source)
  | .run file => withText file (runText n log)
  | .repl => runRepl n log stdin

end MonkeyLang
