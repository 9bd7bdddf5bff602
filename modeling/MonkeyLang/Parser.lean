import MonkeyLang.Parser.Productions

/-! Parsing whole texts. The budget that productions get is linear in the number of tokens. -/

namespace MonkeyLang

namespace Parser

/-- A budget that suffices for the tokens that are left. -/
def budget (p : Parser) : Nat := 4 * p.tokens.length + 8

/-- Parses the tokens that are left. -/
def program (p : Parser) : Program × Parser :=
  let p := { p with log := p.log.record .info .parser fun _ => "Beginning parse phase" }
  match programStatements p.budget p with
  | .done ss p =>
    (⟨ss⟩, { p with
      log := p.log.record .info .parser fun _ =>
        "Parsed " ++ toString ss.length ++ " statement(s) with " ++ toString p.errors.size
          ++ " error(s)" })
  | .failed p => (⟨[]⟩, p)
  | .exhausted => (⟨[]⟩, p)

/-- A parser for what a lexer has left to read, with the first two tokens in view. -/
def ofLexer (l : Lexer) (log : Log := {}) : Parser :=
  let lexemes := l.lexemes
  let p : Parser :=
    { tokens := lexemes.map (·.token), unread := lexemes, size := l.size, log := l.recordStart log }
  let p := p.scan.scan
  { p with
    log := p.log.record .info .parser fun _ =>
      "Parser created (first tokens: " ++ p.current.kind.name ++ " / " ++ p.peek.kind.name ++ ")" }

end Parser

/-- The program of a text, and its errors in the order in which they were found. -/
def parse (source : String) : Program × List ParseError :=
  let (program, p) := (Parser.ofLexer (.ofString source)).program
  (program, p.errors.toList)

end MonkeyLang
