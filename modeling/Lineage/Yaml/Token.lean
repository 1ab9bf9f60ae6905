/-!
The YAML scanner: text to tokens.

The scanner reads the text once, left to right, and produces the token stream of the YAML 1.1
syntax: stream and document markers, the starts and ends of block and flow collections,
entry and key/value indicators, anchors, aliases, tags and scalars. Every token carries the
position where it starts and the one where it ends.

Block structure is found from indentation: a stack of indentation columns is kept, and a
block collection starts when a line is indented past the top of the stack and ends
(a `blockEnd` token) when a later token stands to the left of it.

A key written without `?` (a "simple key") is only known to be a key when the `:` after it
is reached; until then its place in the token list is remembered, one candidate per level of
flow nesting, and the `key` token (and, in block context, the start of a block mapping) is
inserted there afterwards. A candidate expires when the line ends or after 1024 bytes of
text; if the key was required at that place, the text is rejected.

Before scanning, the text is checked for characters that YAML does not allow (the controls
other than tab and line breaks, and the non-characters U+FFFE and U+FFFF); the first one
stops reading, reported by its byte offset.

When the text breaks a rule, scanning stops with a `YamlError` naming the problem, where it
was found, and what was being scanned.
-/
namespace Lineage.Yaml

/-- A position in the text: the character index, the byte offset in UTF-8, and the line and
column (counted in characters) from 0. -/
structure Mark where
  index : Nat
  offset : Nat
  line : Nat
  column : Nat
  deriving Repr, Inhabited, BEq

/-- The start of the text. -/
def Mark.zero : Mark := ⟨0, 0, 0, 0⟩

/-- The position as it is reported, counting lines and columns from 1. -/
def Mark.render (m : Mark) : String :=
  "line " ++ toString (m.line + 1) ++ " column " ++ toString (m.column + 1)

/-- Whether a position is past the very first character, so that it is worth reporting. -/
def Mark.isSet (m : Mark) : Bool :=
  m.line != 0 || m.column != 0

/-- A syntax error: the problem and where it was found, and what was being read and from
where. An error found while reading the characters, before any are scanned, has no position
in lines but a byte offset; other errors have offset 0. -/
structure YamlError where
  problem : String
  problemMark : Mark
  context : Option (String × Mark)
  offset : Nat
  deriving Repr, Inhabited

/-- The error as a message. A position is given only when it is past the first character
(as a byte offset if it has no line and column), and the context's position only when it
differs from the problem's. -/
def YamlError.message (e : YamlError) : String :=
  let place :=
    if e.problemMark.isSet then " at " ++ e.problemMark.render
    else if e.offset != 0 then " at position " ++ toString e.offset
    else ""
  let head := e.problem ++ place
  match e.context with
  | none => head
  | some (ctx, m) =>
    let differs := m.line != e.problemMark.line || m.column != e.problemMark.column
    head ++ ", " ++ ctx ++ (if m.isSet && differs then " at " ++ m.render else "")

/-- How a scalar was written. -/
inductive ScalarStyle where
  | plain
  | singleQuoted
  | doubleQuoted
  | literal
  | folded
  deriving Repr, Inhabited, BEq, DecidableEq

/-- The kinds of token. -/
inductive TokenKind where
  | streamStart
  | streamEnd
  | versionDirective (major minor : Nat)
  | tagDirective (handle pfx : String)
  | documentStart
  | documentEnd
  | blockSequenceStart
  | blockMappingStart
  | blockEnd
  | flowSequenceStart
  | flowSequenceEnd
  | flowMappingStart
  | flowMappingEnd
  | blockEntry
  | flowEntry
  | key
  | value
  | alias (name : String)
  | anchor (name : String)
  | tag (handle suffix : String)
  | scalar (text : String) (style : ScalarStyle)
  deriving Repr, Inhabited, BEq

/-- A token with the positions where it starts and ends. -/
structure Token where
  kind : TokenKind
  start : Mark
  stop : Mark
  deriving Repr, Inhabited

/-- A place where a simple key may start. -/
structure SimpleKey where
  possible : Bool
  required : Bool
  tokenNumber : Nat
  mark : Mark
  deriving Repr, Inhabited

/-- No simple key. -/
def SimpleKey.none : SimpleKey := ⟨false, false, 0, Mark.zero⟩

/-- Line breaks: carriage return, line feed, next line, line and paragraph separators. -/
def isBreakChar (c : Char) : Bool :=
  c == '\r' || c == '\n' || c == '\x85' || c == '\u2028' || c == '\u2029'

/-- Blanks: space and tab. -/
def isBlankChar (c : Char) : Bool :=
  c == ' ' || c == '\t'

/-- The character standing for the end of the text. -/
def endChar : Char := '\x00'

/-- A blank, a break, or the end. -/
def isBlankZ (c : Char) : Bool :=
  isBlankChar c || isBreakChar c || c == endChar

/-- A break or the end. -/
def isBreakZ (c : Char) : Bool :=
  isBreakChar c || c == endChar

/-- Characters of anchor names and tag handles: ASCII letters and digits, `_` and `-`. -/
def isAlphaChar (c : Char) : Bool :=
  c.isAlphanum && c.toNat < 128 || c == '_' || c == '-'

/-- Hexadecimal digits. -/
def isHexChar (c : Char) : Bool :=
  ('0' ≤ c && c ≤ '9') || ('a' ≤ c && c ≤ 'f') || ('A' ≤ c && c ≤ 'F')

/-- The value of a hexadecimal digit. -/
def hexValue (c : Char) : Nat :=
  if '0' ≤ c && c ≤ '9' then c.toNat - 48
  else if 'a' ≤ c && c ≤ 'f' then c.toNat - 87
  else c.toNat - 55

/-- The scanner's state. -/
structure Scanner where
  input : Array Char
  mark : Mark
  tokens : Array Token
  indent : Int
  indents : List Int
  simpleKeyAllowed : Bool
  /-- Simple-key candidates, the innermost flow level first. -/
  simpleKeys : List SimpleKey
  flowLevel : Nat
  streamStartProduced : Bool
  streamEndProduced : Bool
  deriving Inhabited

namespace Scanner

/-- A scanner at the start of a text. -/
def new (text : String) : Scanner :=
  let chars := text.toList
  let chars := if chars.head? == some '\uFEFF' then chars.tail else chars
  { input := chars.toArray, mark := Mark.zero, tokens := #[], indent := -1, indents := [],
    simpleKeyAllowed := false, simpleKeys := [], flowLevel := 0,
    streamStartProduced := false, streamEndProduced := false }

/-- The character `k` places ahead, or the end character past the end. -/
def peekAt (s : Scanner) (k : Nat) : Char :=
  s.input.getD (s.mark.index + k) endChar

/-- The current character. -/
def cur (s : Scanner) : Char := s.peekAt 0

/-- Whether the text is used up. -/
def atEnd (s : Scanner) : Bool := s.input.size ≤ s.mark.index

/-- Steps over a character that is not a line break. -/
def skip (s : Scanner) : Scanner :=
  { s with mark := { s.mark with index := s.mark.index + 1, offset := s.mark.offset + s.cur.utf8Size,
                                 column := s.mark.column + 1 } }

/-- Steps over a line break (a carriage return and line feed together count as one). -/
def skipLine (s : Scanner) : Scanner :=
  if s.cur == '\r' && s.peekAt 1 == '\n' then
    { s with mark := ⟨s.mark.index + 2, s.mark.offset + 2, s.mark.line + 1, 0⟩ }
  else if isBreakChar s.cur then
    { s with mark := ⟨s.mark.index + 1, s.mark.offset + s.cur.utf8Size, s.mark.line + 1, 0⟩ }
  else s

/-- Steps over a line break and gives the text it stands for: a line feed, except that the
line and paragraph separators stand for themselves. -/
def readLine (s : Scanner) : Scanner × String :=
  let c := s.cur
  if c == '\r' || c == '\n' || c == '\x85' then (s.skipLine, "\n")
  else if c == '\u2028' || c == '\u2029' then (s.skipLine, c.toString)
  else (s, "")

/-- Whether a document marker (`---` or `...` followed by a blank) starts here. -/
def atDocumentIndicator (s : Scanner) : Bool :=
  s.mark.column == 0 &&
    ((s.cur == '-' && s.peekAt 1 == '-' && s.peekAt 2 == '-') ||
     (s.cur == '.' && s.peekAt 1 == '.' && s.peekAt 2 == '.')) &&
    isBlankZ (s.peekAt 3)

/-- Appends a token. -/
def push (s : Scanner) (kind : TokenKind) (start stop : Mark) : Scanner :=
  { s with tokens := s.tokens.push ⟨kind, start, stop⟩ }

/-- A scanner error at the current position. -/
def error (s : Scanner) (context : Option (String × Mark)) (problem : String) : YamlError :=
  ⟨problem, s.mark, context, 0⟩

/-- Drops the innermost simple-key candidate; an error if it was required. -/
def removeSimpleKey (s : Scanner) : Except YamlError Scanner :=
  match s.simpleKeys with
  | k :: rest =>
    if k.possible && k.required then
      .error (s.error (some ("while scanning a simple key", k.mark)) "could not find expected ':'")
    else .ok { s with simpleKeys := { k with possible := false } :: rest }
  | [] => .ok s

/-- Remembers the current position as a simple-key candidate, if a key may start here. -/
def saveSimpleKey (s : Scanner) : Except YamlError Scanner :=
  let required := s.flowLevel == 0 && s.indent == (s.mark.column : Int)
  if s.simpleKeyAllowed then do
    let s ← s.removeSimpleKey
    let key : SimpleKey := ⟨true, required, s.tokens.size, s.mark⟩
    pure { s with simpleKeys := key :: s.simpleKeys.tail }
  else pure s

/-- Expires candidates that are no longer on the current line or lie too far back. -/
def staleSimpleKeys (s : Scanner) : Except YamlError Scanner := do
  let keys ← s.simpleKeys.mapM fun (k : SimpleKey) =>
    if k.possible && (k.mark.line < s.mark.line || k.mark.offset + 1024 < s.mark.offset) then
      if k.required then
        throw (s.error (some ("while scanning a simple key", k.mark)) "could not find expected ':'")
      else pure { k with possible := false }
    else pure k
  pure { s with simpleKeys := keys }

/-- Closes block collections indented past `column`. -/
def unrollIndent (s : Scanner) (column : Int) : Scanner :=
  let rec go : Int → List Int → Array Token → Int × List Int × Array Token
    | indent, i :: is, toks =>
      if indent > column then go i is (toks.push ⟨.blockEnd, s.mark, s.mark⟩)
      else (indent, i :: is, toks)
    | indent, [], toks => (indent, [], toks)
  if s.flowLevel > 0 then s
  else
    let (indent, indents, toks) := go s.indent s.indents s.tokens
    { s with indent := indent, indents := indents, tokens := toks }

/-- Opens a block collection at `column` if it is indented past the current one; the start
token goes at the place `number`, or at the end. -/
def rollIndent (s : Scanner) (column : Int) (number : Option Nat) (kind : TokenKind)
    (mark : Mark) : Scanner :=
  if s.flowLevel == 0 && s.indent < column then
    let tok : Token := ⟨kind, mark, mark⟩
    let toks := match number with
      | none => s.tokens.push tok
      | some n => s.tokens.insertIdxIfInBounds n tok
    { s with indents := s.indent :: s.indents, indent := column, tokens := toks }
  else s

/-- Steps over blanks, comments and line breaks up to the next token. Tabs are skipped only
inside flow collections or where no simple key may start. -/
def toNextToken : Nat → Scanner → Scanner
  | 0, s => s
  | n + 1, s =>
    let s := if s.mark.column == 0 && s.cur == '\uFEFF' then s.skip else s
    let rec blanks : Nat → Scanner → Scanner
      | 0, s => s
      | m + 1, s =>
        if s.cur == ' ' || ((s.flowLevel > 0 || !s.simpleKeyAllowed) && s.cur == '\t') then
          blanks m s.skip
        else s
    let rec comment : Nat → Scanner → Scanner
      | 0, s => s
      | m + 1, s => if isBreakZ s.cur then s else comment m s.skip
    let s := blanks (s.input.size + 1) s
    let s := if s.cur == '#' then comment (s.input.size + 1) s else s
    if isBreakChar s.cur then
      let s := s.skipLine
      toNextToken n (if s.flowLevel == 0 then { s with simpleKeyAllowed := true } else s)
    else s

/-- Starts the stream. -/
def fetchStreamStart (s : Scanner) : Scanner :=
  { s with indent := -1, simpleKeyAllowed := true, streamStartProduced := true,
           simpleKeys := [SimpleKey.none] }.push .streamStart s.mark s.mark

/-- Ends the stream: closes every open block collection. -/
def fetchStreamEnd (s : Scanner) : Except YamlError Scanner := do
  let s := if s.mark.column != 0 then
      { s with mark := { s.mark with column := 0, line := s.mark.line + 1 } }
    else s
  let s := s.unrollIndent (-1)
  let s ← s.removeSimpleKey
  pure ({ s with simpleKeyAllowed := false, streamEndProduced := true }.push .streamEnd s.mark s.mark)

/-- Reads `---` or `...`. -/
def fetchDocumentIndicator (s : Scanner) (kind : TokenKind) : Except YamlError Scanner := do
  let s := s.unrollIndent (-1)
  let s ← s.removeSimpleKey
  let s := { s with simpleKeyAllowed := false }
  let start := s.mark
  let s := s.skip.skip.skip
  pure (s.push kind start s.mark)

/-- Reads `[` or `{`. -/
def fetchFlowCollectionStart (s : Scanner) (kind : TokenKind) : Except YamlError Scanner := do
  let s ← s.saveSimpleKey
  let s := { s with simpleKeys := SimpleKey.none :: s.simpleKeys, flowLevel := s.flowLevel + 1,
                    simpleKeyAllowed := true }
  let start := s.mark
  let s := s.skip
  pure (s.push kind start s.mark)

/-- Reads `]` or `}`. -/
def fetchFlowCollectionEnd (s : Scanner) (kind : TokenKind) : Except YamlError Scanner := do
  let s ← s.removeSimpleKey
  let s := if s.flowLevel > 0 then
      { s with flowLevel := s.flowLevel - 1, simpleKeys := s.simpleKeys.tail }
    else s
  let s := { s with simpleKeyAllowed := false }
  let start := s.mark
  let s := s.skip
  pure (s.push kind start s.mark)

/-- Reads `,` in a flow collection. -/
def fetchFlowEntry (s : Scanner) : Except YamlError Scanner := do
  let s ← s.removeSimpleKey
  let s := { s with simpleKeyAllowed := true }
  let start := s.mark
  let s := s.skip
  pure (s.push .flowEntry start s.mark)

/-- Reads the `-` of a block sequence entry. -/
def fetchBlockEntry (s : Scanner) : Except YamlError Scanner := do
  let s ← if s.flowLevel == 0 then
      if !s.simpleKeyAllowed then
        throw (s.error none "block sequence entries are not allowed in this context")
      else pure (s.rollIndent s.mark.column none .blockSequenceStart s.mark)
    else pure s
  let s ← s.removeSimpleKey
  let s := { s with simpleKeyAllowed := true }
  let start := s.mark
  let s := s.skip
  pure (s.push .blockEntry start s.mark)

/-- Reads the `?` of an explicit key. -/
def fetchKey (s : Scanner) : Except YamlError Scanner := do
  let s ← if s.flowLevel == 0 then
      if !s.simpleKeyAllowed then
        throw (s.error none "mapping keys are not allowed in this context")
      else pure (s.rollIndent s.mark.column none .blockMappingStart s.mark)
    else pure s
  let s ← s.removeSimpleKey
  let s := { s with simpleKeyAllowed := s.flowLevel == 0 }
  let start := s.mark
  let s := s.skip
  pure (s.push .key start s.mark)

/-- Reads the `:` of a value. If a simple key was pending, its `key` token (and in block
context the start of a mapping) is inserted where it began. -/
def fetchValue (s : Scanner) : Except YamlError Scanner := do
  let s ← match s.simpleKeys with
    | k :: rest =>
      if k.possible then
        let s := { s with tokens := s.tokens.insertIdxIfInBounds k.tokenNumber ⟨.key, k.mark, k.mark⟩ }
        let s := s.rollIndent k.mark.column (some k.tokenNumber) .blockMappingStart k.mark
        pure { s with simpleKeys := { k with possible := false } :: rest, simpleKeyAllowed := false }
      else
        if s.flowLevel == 0 && !s.simpleKeyAllowed then
          throw (s.error none "mapping values are not allowed in this context")
        else
          let s := s.rollIndent s.mark.column none .blockMappingStart s.mark
          pure { s with simpleKeyAllowed := s.flowLevel == 0 }
    | [] => pure s
  let start := s.mark
  let s := s.skip
  pure (s.push .value start s.mark)

/-- Reads a run of anchor-name characters. -/
def alphaRun : Nat → Scanner → String → Scanner × String
  | 0, s, acc => (s, acc)
  | n + 1, s, acc => if isAlphaChar s.cur then alphaRun n s.skip (acc.push s.cur) else (s, acc)

/-- Reads `&name` or `*name`. -/
def fetchAnchor (s : Scanner) (isAlias : Bool) : Except YamlError Scanner := do
  let s ← s.saveSimpleKey
  let s := { s with simpleKeyAllowed := false }
  let start := s.mark
  let (s, name) := alphaRun (s.input.size + 1) s.skip ""
  let c := s.cur
  if name.isEmpty || !(isBlankZ c || c == '?' || c == ':' || c == ',' || c == ']' ||
      c == '\x7d' || c == '%' || c == '@' || c == '\x60') then
    let ctx := if isAlias then "while scanning an alias" else "while scanning an anchor"
    throw (s.error (some (ctx, start)) "did not find expected alphabetic or numeric character")
  else
    pure (s.push (if isAlias then .alias name else .anchor name) start s.mark)

/-- Characters allowed in a tag's URI. -/
def isUriChar (verbatim : Bool) (c : Char) : Bool :=
  isAlphaChar c || ";/?:@&=+$.%!~*'()".contains c || (verbatim && ",[]".contains c)

/-- Reads the characters of a tag's URI, decoding `%` escapes. -/
def uriRun (verbatim : Bool) (ctx : String) (start : Mark) :
    Nat → Scanner → String → Except YamlError (Scanner × String)
  | 0, s, acc => .ok (s, acc)
  | n + 1, s, acc =>
    if !isUriChar verbatim s.cur then .ok (s, acc)
    else if s.cur == '%' then
      if isHexChar (s.peekAt 1) && isHexChar (s.peekAt 2) then
        let v := hexValue (s.peekAt 1) * 16 + hexValue (s.peekAt 2)
        uriRun verbatim ctx start n s.skip.skip.skip (acc.push (Char.ofNat v))
      else .error (s.error (some (ctx, start)) "did not find URI escaped octet")
    else uriRun verbatim ctx start n s.skip (acc.push s.cur)

/-- Reads a tag's URI after `head` (a handle that turned out to be part of it). -/
def scanTagUri (s : Scanner) (verbatim directive : Bool) (head : String) (start : Mark) :
    Except YamlError (Scanner × String) := do
  let ctx := if directive then "while parsing a %TAG directive" else "while parsing a tag"
  let (s, text) ← uriRun verbatim ctx start (s.input.size + 1) s ""
  if head.length + text.length == 0 then
    throw (s.error (some (ctx, start)) "did not find expected tag URI")
  else pure (s, (head.drop 1).toString ++ text)

/-- Reads a tag handle: `!`, `!!` or `!name!`. -/
def scanTagHandle (s : Scanner) (directive : Bool) (start : Mark) :
    Except YamlError (Scanner × String) := do
  let ctx := if directive then "while scanning a tag directive" else "while scanning a tag"
  if s.cur != '!' then throw (s.error (some (ctx, start)) "did not find expected '!'")
  else
    let (s, name) := alphaRun (s.input.size + 1) s.skip "!"
    if s.cur == '!' then pure (s.skip, name.push '!')
    else if directive && name != "!" then
      throw (s.error (some ("while parsing a tag directive", start)) "did not find expected '!'")
    else pure (s, name)

/-- Reads a tag: `!<uri>`, `!handle!suffix` or `!suffix`. -/
def fetchTag (s : Scanner) : Except YamlError Scanner := do
  let s ← s.saveSimpleKey
  let s := { s with simpleKeyAllowed := false }
  let start := s.mark
  let (s, handle, suffix) ← if s.peekAt 1 == '<' then do
      let (s, suffix) ← scanTagUri s.skip.skip true false "" start
      if s.cur != '>' then
        throw (s.error (some ("while scanning a tag", start)) "did not find the expected '>'")
      else pure (s.skip, "", suffix)
    else do
      let (s, handle) ← scanTagHandle s false start
      if handle.length > 1 && handle.startsWith "!" && handle.endsWith "!" then do
        let (s, suffix) ← scanTagUri s false false "" start
        pure (s, handle, suffix)
      else do
        let (s, suffix) ← scanTagUri s false false handle start
        if suffix.isEmpty then pure (s, "", "!") else pure (s, "!", suffix)
  if !isBlankZ s.cur && !(s.flowLevel > 0 && s.cur == ',') then
    throw (s.error (some ("while scanning a tag", start)) "did not find expected whitespace or line break")
  else pure (s.push (.tag handle suffix) start s.mark)

/-- Text being gathered across lines: what is kept, blanks not yet known to be inner, the
first line break of a run and the further ones. -/
structure Fold where
  text : String
  spaces : String
  leading : String
  trailing : String
  leadingBlanks : Bool
  deriving Inhabited

/-- Nothing gathered yet. -/
def Fold.empty : Fold := ⟨"", "", "", "", false⟩

/-- Adds the pending blanks or line breaks before more text. One line feed between two lines
becomes a space; further line breaks are kept. -/
def Fold.join (f : Fold) : Fold :=
  if f.leadingBlanks then
    if f.leading.startsWith "\n" then
      if f.trailing.isEmpty then { f with text := f.text.push ' ', leading := "", leadingBlanks := false }
      else { f with text := f.text ++ f.trailing, trailing := "", leading := "", leadingBlanks := false }
    else
      { f with text := f.text ++ f.leading ++ f.trailing, leading := "", trailing := "",
               leadingBlanks := false }
  else { f with text := f.text ++ f.spaces, spaces := "" }

/-- Eats blanks and line breaks inside a flow scalar. In a plain scalar, a tab in the
indentation of a continuation line is an error. -/
def eatBlanks (plain : Bool) (indent : Int) (start : Mark) :
    Nat → Scanner → Fold → Except YamlError (Scanner × Fold)
  | 0, s, f => .ok (s, f)
  | n + 1, s, f =>
    let c := s.cur
    if isBlankChar c then
      if plain && f.leadingBlanks && (s.mark.column : Int) < indent && c == '\t' then
        .error (s.error (some ("while scanning a plain scalar", start))
          "found a tab character that violates indentation")
      else if !f.leadingBlanks then eatBlanks plain indent start n s.skip { f with spaces := f.spaces.push c }
      else eatBlanks plain indent start n s.skip f
    else if isBreakChar c then
      let (s', br) := s.readLine
      if !f.leadingBlanks then
        eatBlanks plain indent start n s' { f with spaces := "", leading := br, leadingBlanks := true }
      else eatBlanks plain indent start n s' { f with trailing := f.trailing ++ br }
    else .ok (s, f)

/-- Reads the non-blank characters of a plain scalar, up to an indicator that ends it. -/
def plainRun : Nat → Scanner → Fold → Mark → Scanner × Fold × Mark
  | 0, s, f, e => (s, f, e)
  | n + 1, s, f, e =>
    let c := s.cur
    let flow := s.flowLevel > 0
    if isBlankZ c then (s, f, e)
    else if flow && c == ':' && ",?[]\x7b\x7d".contains (s.peekAt 1) then (s, f, e)
    else if (c == ':' && isBlankZ (s.peekAt 1)) || (flow && ",[]\x7b\x7d".contains c) then (s, f, e)
    else
      let f := if f.leadingBlanks || !f.spaces.isEmpty then f.join else f
      let s' := s.skip
      plainRun n s' { f with text := f.text.push c } s'.mark

/-- Reads a plain scalar line by line; it ends at a comment, a document marker, an
indicator, or a line indented no further than the enclosing block. -/
def plainLoop (indent : Int) (start : Mark) :
    Nat → Scanner → Fold → Mark → Except YamlError (Scanner × Fold × Mark)
  | 0, s, f, e => .ok (s, f, e)
  | n + 1, s, f, e =>
    if s.atDocumentIndicator || s.cur == '#' then .ok (s, f, e)
    else
      let (s, f, e) := plainRun (s.input.size + 1) s f e
      if !(isBlankChar s.cur || isBreakChar s.cur) then .ok (s, f, e)
      else do
        let (s, f) ← eatBlanks true indent start (s.input.size + 1) s f
        if s.flowLevel == 0 && (s.mark.column : Int) < indent then pure (s, f, e)
        else plainLoop indent start n s f e

/-- Reads a plain scalar. A simple key may start after it only if it ran over a line. -/
def fetchPlain (s : Scanner) : Except YamlError Scanner := do
  let s ← s.saveSimpleKey
  let s := { s with simpleKeyAllowed := false }
  let start := s.mark
  let (s, f, e) ← plainLoop (s.indent + 1) start (s.input.size + 1) s Fold.empty start
  let s := if f.leadingBlanks then { s with simpleKeyAllowed := true } else s
  pure (s.push (.scalar f.text .plain) start e)

/-- What a double-quoted escape stands for: a character, or a code of so many hex digits. -/
def escapeOf (c : Char) : Option (Char ⊕ Nat) :=
  match c with
  | '0' => some (.inl '\x00')
  | 'a' => some (.inl '\x07')
  | 'b' => some (.inl '\x08')
  | 't' => some (.inl '\t')
  | '\t' => some (.inl '\t')
  | 'n' => some (.inl '\n')
  | 'v' => some (.inl '\x0b')
  | 'f' => some (.inl '\x0c')
  | 'r' => some (.inl '\r')
  | 'e' => some (.inl '\x1b')
  | ' ' => some (.inl ' ')
  | '"' => some (.inl '"')
  | '/' => some (.inl '/')
  | '\'' => some (.inl '\'')
  | '\\' => some (.inl '\\')
  | 'N' => some (.inl '\x85')
  | '_' => some (.inl '\xa0')
  | 'L' => some (.inl '\u2028')
  | 'P' => some (.inl '\u2029')
  | 'x' => some (.inr 2)
  | 'u' => some (.inr 4)
  | 'U' => some (.inr 8)
  | _ => none

/-- The value of `len` hex digits starting `k` places ahead, if they are all hex digits. -/
def hexAhead (s : Scanner) (k : Nat) : Nat → Option Nat
  | 0 => some 0
  | len + 1 =>
    let c := s.peekAt (k + len)
    if isHexChar c then (hexAhead s k len).map fun v => v * 16 + hexValue c else none

/-- Reads the non-blank characters of a quoted scalar, up to its closing quote. -/
def quotedRun (single : Bool) (start : Mark) :
    Nat → Scanner → Fold → Except YamlError (Scanner × Fold)
  | 0, s, f => .ok (s, f)
  | n + 1, s, f =>
    let c := s.cur
    let quote := if single then '\'' else '"'
    let ctx := some ("while parsing a quoted scalar", start)
    if isBlankZ c then .ok (s, f)
    else if single && c == '\'' && s.peekAt 1 == '\'' then
      quotedRun single start n s.skip.skip { f with text := f.text.push '\'' }
    else if c == quote then .ok (s, f)
    else if !single && c == '\\' && isBreakChar (s.peekAt 1) then
      .ok (s.skip.skipLine, { f with leadingBlanks := true })
    else if !single && c == '\\' then
      match escapeOf (s.peekAt 1) with
      | none => .error (s.error ctx "found unknown escape character")
      | some (.inl ch) => quotedRun single start n s.skip.skip { f with text := f.text.push ch }
      | some (.inr len) =>
        let s := s.skip.skip
        match hexAhead s 0 len with
        | none => .error (s.error ctx "did not find expected hexdecimal number")
        | some v =>
          if (0xD800 ≤ v && v ≤ 0xDFFF) || v > 0x10FFFF then
            .error (s.error ctx "found invalid Unicode character escape code")
          else
            let s := (List.range len).foldl (fun (t : Scanner) _ => t.skip) s
            quotedRun single start n s { f with text := f.text.push (Char.ofNat v) }
    else quotedRun single start n s.skip { f with text := f.text.push c }

/-- Reads a quoted scalar line by line up to its closing quote. -/
def quotedLoop (single : Bool) (start : Mark) :
    Nat → Scanner → Fold → Except YamlError (Scanner × Fold)
  | 0, s, f => .ok (s, f)
  | n + 1, s, f => do
    let ctx := some ("while scanning a quoted scalar", start)
    if s.atDocumentIndicator then throw (s.error ctx "found unexpected document indicator")
    else if s.atEnd then throw (s.error ctx "found unexpected end of stream")
    else
      let (s, f) ← quotedRun single start (s.input.size + 1) s { f with leadingBlanks := false }
      if s.cur == (if single then '\'' else '"') then pure (s, f)
      else
        let (s, f) ← eatBlanks false 0 start (s.input.size + 1) s f
        quotedLoop single start n s f.join

/-- Reads a single- or double-quoted scalar. -/
def fetchQuoted (s : Scanner) (single : Bool) : Except YamlError Scanner := do
  let s ← s.saveSimpleKey
  let s := { s with simpleKeyAllowed := false }
  let start := s.mark
  let (s, f) ← quotedLoop single start (s.input.size + 1) s.skip Fold.empty
  let s := s.skip
  pure (s.push (.scalar f.text (if single then .singleQuoted else .doubleQuoted)) start s.mark)

/-- Eats the indentation and the empty lines before a line of a block scalar, gathering the
line breaks. Gives the scanner, the deepest indentation seen, the breaks and the end. -/
def blockBreaks (start : Mark) (indent : Nat) :
    Nat → Scanner → Nat → String → Mark → Except YamlError (Scanner × Nat × String × Mark)
  | 0, s, maxIndent, breaks, e => .ok (s, maxIndent, breaks, e)
  | n + 1, s, maxIndent, breaks, e =>
    let rec spaces : Nat → Scanner → Scanner
      | 0, s => s
      | m + 1, s =>
        if (indent == 0 || s.mark.column < indent) && s.cur == ' ' then spaces m s.skip else s
    let s := spaces (s.input.size + 1) s
    let maxIndent := max maxIndent s.mark.column
    if (indent == 0 || s.mark.column < indent) && s.cur == '\t' then
      .error (s.error (some ("while scanning a block scalar", start))
        "found a tab character where an indentation space is expected")
    else if !isBreakChar s.cur then .ok (s, maxIndent, breaks, e)
    else
      let (s, br) := s.readLine
      blockBreaks start indent n s maxIndent (breaks ++ br) s.mark

/-- Reads the rest of a line into the text. -/
def lineRest : Nat → Scanner → String → Scanner × String
  | 0, s, acc => (s, acc)
  | n + 1, s, acc => if isBreakZ s.cur || s.atEnd then (s, acc) else lineRest n s.skip (acc.push s.cur)

/-- Reads the lines of a block scalar at its indentation. -/
def blockLines (literal : Bool) (start : Mark) (indent : Nat) :
    Nat → Scanner → String → String → String → Bool → Mark →
      Except YamlError (Scanner × String × String × String × Mark)
  | 0, s, text, leading, trailing, _, e => .ok (s, text, leading, trailing, e)
  | n + 1, s, text, leading, trailing, leadingBlank, e =>
    if s.mark.column != indent || s.atEnd then .ok (s, text, leading, trailing, e)
    else do
      let trailingBlank := isBlankChar s.cur
      let text :=
        if !literal && leading.startsWith "\n" && !leadingBlank && !trailingBlank then
          if trailing.isEmpty then text.push ' ' else text
        else text ++ leading
      let text := text ++ trailing
      let leadingBlank := isBlankChar s.cur
      let (s, text) := lineRest (s.input.size + 1) s text
      let (s, leading) := s.readLine
      let (s, _, trailing, e) ← blockBreaks start indent (s.input.size + 1) s 0 "" e
      blockLines literal start indent n s text leading trailing leadingBlank e

/-- Reads a literal (`|`) or folded (`>`) block scalar with its header. -/
def fetchBlockScalar (s : Scanner) (literal : Bool) : Except YamlError Scanner := do
  let s ← s.removeSimpleKey
  let s := { s with simpleKeyAllowed := true }
  let start := s.mark
  let ctx := some ("while scanning a block scalar", start)
  let s := s.skip
  let chompOf := fun (c : Char) => if c == '+' then (1 : Int) else -1
  let isDigit := fun (c : Char) => '0' ≤ c && c ≤ '9'
  let (s, chomping, increment) ←
    if s.cur == '+' || s.cur == '-' then do
      let chomping := chompOf s.cur
      let s := s.skip
      if isDigit s.cur then
        if s.cur == '0' then throw (s.error ctx "found an indentation indicator equal to 0")
        else pure (s.skip, chomping, s.cur.toNat - 48)
      else pure (s, chomping, 0)
    else if isDigit s.cur then do
      if s.cur == '0' then throw (s.error ctx "found an indentation indicator equal to 0")
      let increment := s.cur.toNat - 48
      let s := s.skip
      if s.cur == '+' || s.cur == '-' then pure (s.skip, chompOf s.cur, increment)
      else pure (s, 0, increment)
    else pure (s, 0, 0)
  let rec blanks : Nat → Scanner → Scanner
    | 0, s => s
    | m + 1, s => if isBlankChar s.cur then blanks m s.skip else s
  let rec comment : Nat → Scanner → Scanner
    | 0, s => s
    | m + 1, s => if isBreakZ s.cur then s else comment m s.skip
  let s := blanks (s.input.size + 1) s
  let s := if s.cur == '#' then comment (s.input.size + 1) s else s
  if !isBreakZ s.cur then throw (s.error ctx "did not find expected comment or line break")
  let s := if isBreakChar s.cur then s.skipLine else s
  let e := s.mark
  let indent : Nat :=
    if increment > 0 then (if s.indent ≥ 0 then (s.indent + increment).toNat else increment) else 0
  let (s, maxIndent, trailing, e) ← blockBreaks start indent (s.input.size + 1) s 0 "" e
  let indent := if indent == 0 then max (max maxIndent (s.indent + 1).toNat) 1 else indent
  let (s, text, leading, trailing, e) ←
    blockLines literal start indent (s.input.size + 1) s "" "" trailing false e
  let text := if chomping != -1 then text ++ leading else text
  let text := if chomping == 1 then text ++ trailing else text
  pure (s.push (.scalar text (if literal then .literal else .folded)) start e)

/-- Reads the digits of a version number. -/
def digitRun : Nat → Scanner → Nat → Nat → Scanner × Nat × Nat
  | 0, s, v, k => (s, v, k)
  | n + 1, s, v, k =>
    if '0' ≤ s.cur && s.cur ≤ '9' then digitRun n s.skip (v * 10 + (s.cur.toNat - 48)) (k + 1)
    else (s, v, k)

/-- Reads a `%YAML` or `%TAG` directive line. -/
def fetchDirective (s : Scanner) : Except YamlError Scanner := do
  let s := s.unrollIndent (-1)
  let s ← s.removeSimpleKey
  let s := { s with simpleKeyAllowed := false }
  let start := s.mark
  let ctx := some ("while scanning a directive", start)
  let rec blanks : Nat → Scanner → Scanner
    | 0, s => s
    | m + 1, s => if isBlankChar s.cur then blanks m s.skip else s
  let (s, name) := alphaRun (s.input.size + 1) s.skip ""
  if name.isEmpty then throw (s.error ctx "could not find expected directive name")
  if !isBlankZ s.cur then throw (s.error ctx "found unexpected non-alphabetical character")
  let (s, kind) ←
    if name == "YAML" then do
      let vctx := some ("while scanning a %YAML directive", start)
      let s := blanks (s.input.size + 1) s
      let (s, major, k) := digitRun 10 s 0 0
      if k > 9 then throw (s.error vctx "found extremely long version number")
      if k == 0 then throw (s.error vctx "did not find expected version number")
      if s.cur != '.' then throw (s.error vctx "did not find expected digit or '.' character")
      let (s, minor, k) := digitRun 10 s.skip 0 0
      if k > 9 then throw (s.error vctx "found extremely long version number")
      if k == 0 then throw (s.error vctx "did not find expected version number")
      pure (s, TokenKind.versionDirective major minor)
    else if name == "TAG" then do
      let tctx := some ("while scanning a %TAG directive", start)
      let s := blanks (s.input.size + 1) s
      let (s, handle) ← scanTagHandle s true start
      if !isBlankChar s.cur then throw (s.error tctx "did not find expected whitespace")
      let s := blanks (s.input.size + 1) s
      let (s, pfx) ← scanTagUri s true true "" start
      if !isBlankZ s.cur then throw (s.error tctx "did not find expected whitespace or line break")
      pure (s, TokenKind.tagDirective handle pfx)
    else throw (s.error ctx "found unknown directive name")
  let stop := s.mark
  let s := blanks (s.input.size + 1) s
  let rec comment : Nat → Scanner → Scanner
    | 0, s => s
    | m + 1, s => if isBreakZ s.cur then s else comment m s.skip
  let s := if s.cur == '#' then comment (s.input.size + 1) s else s
  if !isBreakZ s.cur then throw (s.error ctx "did not find expected comment or line break")
  let s := if isBreakChar s.cur then s.skipLine else s
  pure (s.push kind start stop)

/-- Whether a plain scalar may start here. -/
def startsPlain (s : Scanner) : Bool :=
  let c := s.cur
  let next := s.peekAt 1
  !(isBlankZ c || "-?:,[]\x7b\x7d#&*!|>'\"%@`".contains c) ||
    (c == '-' && !isBlankChar next) ||
    (s.flowLevel == 0 && (c == '?' || c == ':') && !isBlankZ next)

/-- Reads the next token (with any block ends and inserted keys before it). -/
def fetchNext (s : Scanner) : Except YamlError Scanner := do
  if !s.streamStartProduced then return s.fetchStreamStart
  let s := toNextToken (s.input.size + 1) s
  let s ← s.staleSimpleKeys
  let s := s.unrollIndent s.mark.column
  let c := s.cur
  let next := s.peekAt 1
  if s.atEnd then s.fetchStreamEnd
  else if s.mark.column == 0 && c == '%' then s.fetchDirective
  else if s.atDocumentIndicator && c == '-' then s.fetchDocumentIndicator .documentStart
  else if s.atDocumentIndicator && c == '.' then s.fetchDocumentIndicator .documentEnd
  else if c == '[' then s.fetchFlowCollectionStart .flowSequenceStart
  else if c == '\x7b' then s.fetchFlowCollectionStart .flowMappingStart
  else if c == ']' then s.fetchFlowCollectionEnd .flowSequenceEnd
  else if c == '\x7d' then s.fetchFlowCollectionEnd .flowMappingEnd
  else if c == ',' then s.fetchFlowEntry
  else if c == '-' && isBlankZ next then s.fetchBlockEntry
  else if c == '?' && (s.flowLevel > 0 || isBlankZ next) then s.fetchKey
  else if c == ':' && (s.flowLevel > 0 || isBlankZ next) then s.fetchValue
  else if c == '*' then s.fetchAnchor true
  else if c == '&' then s.fetchAnchor false
  else if c == '!' then s.fetchTag
  else if c == '|' && s.flowLevel == 0 then s.fetchBlockScalar true
  else if c == '>' && s.flowLevel == 0 then s.fetchBlockScalar false
  else if c == '\'' then s.fetchQuoted true
  else if c == '"' then s.fetchQuoted false
  else if s.startsPlain then s.fetchPlain
  else throw (s.error (some ("while scanning for the next token", s.mark))
    "found character that cannot start any token")

/-- How many tokens are settled: those before the place of the first simple-key candidate,
where a key may still be inserted. Only settled tokens are handed on to be parsed, so a
scanning error is met before any token from such a place. -/
def settled (s : Scanner) : Nat :=
  s.simpleKeys.foldl (fun n k => if k.possible then min n k.tokenNumber else n) s.tokens.size

/-- Scans until the stream ends or an error; every step but the last reads at least one
character, so the fuel is the text's length and a little more. After each token the
candidates are checked for expiry where the token ends, before looking for the next one. On
an error, the tokens are those settled before it. -/
def run : Nat → Scanner → Array Token × Option YamlError
  | 0, s => (s.tokens, none)
  | n + 1, s =>
    if s.streamEndProduced then (s.tokens, none)
    else match s.fetchNext with
      | .error e => (s.tokens.extract 0 s.settled, some e)
      | .ok s' =>
        match s'.staleSimpleKeys with
        | .ok s'' => run n s''
        | .error e => (s'.tokens.extract 0 s'.settled, some e)

end Scanner

/-- Whether a character may appear in a YAML text: tab, line feed, carriage return, printable
ASCII, next line, and beyond that all but the C1 controls and the non-characters U+FFFE and
U+FFFF. -/
def isAllowedChar (c : Char) : Bool :=
  let n := c.toNat
  n == 0x09 || n == 0x0A || n == 0x0D || (0x20 ≤ n && n ≤ 0x7E) || n == 0x85 ||
    (0xA0 ≤ n && n ≤ 0xD7FF) || (0xE000 ≤ n && n ≤ 0xFFFD) || 0x10000 ≤ n

/-- The byte offset of the first character of a list that is not allowed, counting from
`offset`. -/
def firstDisallowed : List Char → Nat → Option Nat
  | [], _ => none
  | c :: cs, offset => if isAllowedChar c then firstDisallowed cs (offset + c.utf8Size) else some offset

/-- The tokens of a text, and the error that stopped scanning if there was one. -/
def tokenize (text : String) : Array Token × Option YamlError :=
  match firstDisallowed text.toList 0 with
  | some offset => (#[], some ⟨"control characters are not allowed", Mark.zero, none, offset⟩)
  | none =>
    let s := Scanner.new text
    Scanner.run (s.input.size + 3) s

end Lineage.Yaml
