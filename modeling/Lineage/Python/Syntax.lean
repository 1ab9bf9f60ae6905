import Lineage.Pattern.Search
import Lineage.Scan.Shapes
/-!
The shapes of Python declarations and imports, as patterns.

A declaration header is a run of decorator lines, then on a line of its own the
indentation, an optional `async`, `def` or `class`, the name, an optional parameter list in
parentheses, an optional return annotation after `->`, and the colon. Headers are matched
line by line: `lineStart` holds at the text's start and after each line feed.
-/
namespace Lineage.Python

open Pattern Scan

/-- A space or a tab. -/
def hblank : Pattern := oneOf " \t"

/-- Any run of spaces and tabs. -/
def hblanks : Pattern := many hblank

/-- A run of at least one space or tab. -/
def hblanks1 : Pattern := many1 hblank

/-- A dotted name whose dots may have spaces and tabs around them. -/
def qualifiedName : Pattern := identifier ++ many (hblanks ++ lit "." ++ hblanks ++ identifier)

/-- A triple-quoted string with the given quote, which may span lines. -/
def tripleQuoted (q : String) : Pattern :=
  lit q ++ manyLazy ((lit "\\" ++ anyChar) <|> anyChar) ++ lit q

/-- A one-line string with the given quote character. -/
def quoted (q : String) : Pattern :=
  lit q ++ many (noneOf (q ++ "\\\n") <|> (lit "\\" ++ notNewline)) ++ lit q

/-- Comments and string literals. -/
def literal : Pattern :=
  alts [lit "#" ++ many notNewline, tripleQuoted "'''", tripleQuoted "\"\"\"", quoted "'",
    quoted "\""]

/-- A backslash that joins a line to the next. -/
def lineContinuation : Pattern := lit "\\\n"

/-- A declaration header; see the module comment. -/
def declaration : Pattern :=
  group "decorators" (many (lineStart ++ hblanks ++ lit "@" ++ many notNewline ++ lit "\n"))
    ++ lineStart ++ group "indent" hblanks ++ opt (lit "async" ++ hblanks1)
    ++ group "kind" (words ["def", "class"]) ++ hblanks1 ++ group "name" identifier ++ hblanks
    ++ opt (lit "(" ++ group "params" (many (noneOf "()" <|> bracket '(' ')')) ++ lit ")"
      ++ hblanks)
    ++ opt (lit "->" ++ hblanks ++ group "returnType" (many1Lazy (noneOf ":")) ++ hblanks)
    ++ lit ":" ++ hblanks

/-- A bracketed part with no opening bracket of its kind inside, or a lambda up to its
colon: what may hide commas inside a parameter list. -/
def paramCensor : Pattern :=
  alts [lit "\x7b" ++ many (noneOf "\x7b") ++ lit "\x7d", lit "(" ++ many (noneOf "(") ++ lit ")",
    lit "[" ++ many (noneOf "[") ++ lit "]",
    wordBoundary ++ lit "lambda" ++ wordBoundary ++ many (noneOf ":") ++ lit ":"]

/-- A parameter: its name, an annotation after `:` and a default after `=`. -/
def parameter : Pattern :=
  group "name" identifier
    ++ opt (hblanks ++ lit ":" ++ hblanks ++ group "type" (many1 (noneOf "=,")))
    ++ opt (hblanks ++ lit "=" ++ hblanks ++ group "defaultValue" (many1 (noneOf ",")))

/-- An entry of a class's base list, possibly the metaclass. -/
def baseEntry : Pattern :=
  blanks ++ opt (group "meta" (wordBoundary ++ lit "metaclass" ++ blanks ++ lit "=" ++ blanks))
    ++ group "main" (many1 (noneOf ","))

/-- An import statement: `import …` or `from … import …`, with a star, a parenthesised
list or a list up to the line's end. -/
def importStatement : Pattern :=
  lineStart ++ hblanks
    ++ opt (lit "from" ++ hblanks1 ++ group "relative" (many (lit ".")) ++ hblanks
      ++ opt (group "from" qualifiedName) ++ hblanks1)
    ++ lit "import" ++ hblanks1
    ++ alts [group "star" (lit "*"), lit "(" ++ group "plist" (many (noneOf ")")) ++ lit ")",
      group "list" (many1 notNewline)]

/-- One imported name with an optional alias. -/
def importElement : Pattern :=
  group "source" qualifiedName ++ opt (hblanks1 ++ lit "as" ++ hblanks1 ++ group "alias" identifier)

/-- Comments and string literals, compiled. -/
def literalProgram : Program := literal.compile

/-- Line continuations, compiled. -/
def continuationProgram : Program := lineContinuation.compile

/-- Declaration headers, compiled. -/
def declarationProgram : Program := declaration.compile

/-- What hides commas in a parameter list, compiled. -/
def censorProgram : Program := paramCensor.compile

/-- Parameters, compiled. -/
def parameterProgram : Program := parameter.compile

/-- Base list entries, compiled. -/
def baseProgram : Program := baseEntry.compile

/-- Import statements, compiled. -/
def importProgram : Program := importStatement.compile

/-- Imported names, compiled. -/
def elementProgram : Program := importElement.compile

end Lineage.Python
