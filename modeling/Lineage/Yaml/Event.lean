import Lineage.Yaml.Token
/-!
The YAML parser: tokens to events.

The parser walks the token list with a stack of states, the LL(1) grammar of YAML 1.1 made
into a state machine. Each step gives one event: the start or end of the stream, of a
document, of a sequence or of a mapping, a scalar, or an alias. Properties (an anchor and a
tag) are attached to the node they precede, and tags are expanded with the document's tag
directives (`!` and `!!` are always known).

Where the grammar leaves a node out (a key with no value, an entry with nothing after the
`-`), the parser gives an empty plain scalar. A token the grammar does not allow stops the
parser with an error naming the collection being read and where it started.
-/
namespace Lineage.Yaml

/-- The kinds of event. -/
inductive EventKind where
  | streamStart
  | streamEnd
  | documentStart
  | documentEnd
  | alias (name : String)
  | scalar (anchor tag : Option String) (text : String) (style : ScalarStyle)
  | sequenceStart (anchor tag : Option String)
  | sequenceEnd
  | mappingStart (anchor tag : Option String)
  | mappingEnd
  deriving Repr, Inhabited, BEq

/-- An event with the position where it starts. -/
structure Event where
  kind : EventKind
  start : Mark
  deriving Repr, Inhabited

/-- What the parser expects next. -/
inductive ParseState where
  | streamStart
  | implicitDocumentStart
  | documentStart
  | documentContent
  | documentEnd
  | blockNode
  | blockNodeOrIndentlessSequence
  | flowNode
  | blockSequenceFirstEntry
  | blockSequenceEntry
  | indentlessSequenceEntry
  | blockMappingFirstKey
  | blockMappingKey
  | blockMappingValue
  | flowSequenceFirstEntry
  | flowSequenceEntry
  | flowSequenceEntryMappingKey
  | flowSequenceEntryMappingValue
  | flowSequenceEntryMappingEnd
  | flowMappingFirstKey
  | flowMappingKey
  | flowMappingValue
  | flowMappingEmptyValue
  | finished
  deriving Repr, Inhabited, BEq

/-- The parser's state: the tokens, the error that ended them (if any), the place reached,
the state stack, the start positions of the open collections, and the tag directives of the
current document. -/
structure Parser where
  tokens : Array Token
  scanError : Option YamlError
  pos : Nat
  state : ParseState
  states : List ParseState
  marks : List Mark
  tagDirectives : List (String × String)
  deriving Inhabited

namespace Parser

/-- The next token; past the last one, the error that ended scanning. -/
def peek (p : Parser) : Except YamlError Token :=
  match p.tokens[p.pos]? with
  | some t => .ok t
  | none => .error (p.scanError.getD ⟨"did not find expected <stream-end>", Mark.zero, none, 0⟩)

/-- Steps past the next token. -/
def skipToken (p : Parser) : Parser := { p with pos := p.pos + 1 }

/-- Returns to the state on top of the stack. -/
def popState (p : Parser) : Parser :=
  match p.states with
  | s :: rest => { p with state := s, states := rest }
  | [] => { p with state := .finished }

/-- Pushes the state to return to. -/
def pushState (p : Parser) (s : ParseState) : Parser := { p with states := s :: p.states }

/-- Takes the start position of the innermost open collection. -/
def popMark (p : Parser) : Parser × Mark :=
  match p.marks with
  | m :: rest => ({ p with marks := rest }, m)
  | [] => (p, Mark.zero)

/-- The start position of the innermost open collection. -/
def topMark (p : Parser) : Mark := p.marks.headD Mark.zero

/-- Steps past the token that opens a collection, remembering where it starts. -/
def openCollection (p : Parser) : Except YamlError Parser := do
  let t ← p.peek
  pure { p.skipToken with marks := t.start :: p.marks }

end Parser

/-- The empty plain scalar standing for a node left out. -/
def emptyScalar (mark : Mark) : Event := ⟨.scalar none none "" .plain, mark⟩

/-- An error with no context. -/
def parserError (problem : String) (mark : Mark) : YamlError := ⟨problem, mark, none, 0⟩

/-- An error in the context of a construct started at `ctxMark`. -/
def contextError (ctx : String) (ctxMark : Mark) (problem : String) (mark : Mark) : YamlError :=
  ⟨problem, mark, some (ctx, ctxMark), 0⟩

/-- Whether a token is a directive. -/
def Token.isDirective (t : Token) : Bool :=
  match t.kind with
  | .versionDirective _ _ => true
  | .tagDirective _ _ => true
  | _ => false

namespace Parser

/-- Reads the directives before a document and sets its tag handles. -/
def processDirectives (p : Parser) : Except YamlError Parser := do
  let rec go : Nat → Parser → Bool → List (String × String) →
      Except YamlError (Parser × List (String × String))
    | 0, p, _, tags => pure (p, tags)
    | n + 1, p, seenVersion, tags => do
      let t ← p.peek
      match t.kind with
      | .versionDirective major minor =>
        if seenVersion then throw (parserError "found duplicate %YAML directive" t.start)
        else if major != 1 || (minor != 1 && minor != 2) then
          throw (parserError "found incompatible YAML document" t.start)
        else go n p.skipToken true tags
      | .tagDirective handle pfx =>
        if tags.any (·.1 == handle) then throw (parserError "found duplicate %TAG directive" t.start)
        else go n p.skipToken seenVersion (tags ++ [(handle, pfx)])
      | _ => pure (p, tags)
  let (p, tags) ← go (p.tokens.size + 1) p false []
  let defaults := [("!", "!"), ("!!", "tag:yaml.org,2002:")]
  let tags := tags ++ defaults.filter fun (h, _) => !tags.any (·.1 == h)
  pure { p with tagDirectives := tags }

/-- Steps past the document-end markers before a document. -/
def skipDocumentEnds : Nat → Parser → Except YamlError Parser
  | 0, p => pure p
  | n + 1, p => do
    let t ← p.peek
    if t.kind == .documentEnd then skipDocumentEnds n p.skipToken else pure p

/-- Starts a document (or ends the stream). The first document may begin without `---`. -/
def documentStart (p : Parser) (implicit : Bool) : Except YamlError (Parser × Event) := do
  let p ← if implicit then pure p else skipDocumentEnds (p.tokens.size + 1) p
  let t ← p.peek
  if implicit && !(t.isDirective || t.kind == .documentStart || t.kind == .streamEnd) then
    let p ← p.processDirectives
    pure ({ p with state := .blockNode, states := .documentEnd :: p.states }, ⟨.documentStart, t.start⟩)
  else if t.kind != .streamEnd then
    let start := t.start
    let p ← p.processDirectives
    let t ← p.peek
    if t.kind != .documentStart then
      throw (parserError "did not find expected <document start>" t.start)
    else
      let p := p.skipToken
      pure ({ p with state := .documentContent, states := .documentEnd :: p.states },
        ⟨.documentStart, start⟩)
  else pure ({ p.skipToken with state := .finished }, ⟨.streamEnd, t.start⟩)

/-- Reads the properties (anchor and tag, in either order) before a node. Gives the parser,
the token after them, the anchor, the tag as handle and suffix, and where the tag stood. -/
def properties (p : Parser) (t : Token) :
    Except YamlError (Parser × Token × Option String × Option (String × String) × Mark) := do
  match t.kind with
  | .anchor name =>
    let p := p.skipToken
    let t' ← p.peek
    match t'.kind with
    | .tag h s =>
      let p := p.skipToken
      let t'' ← p.peek
      pure (p, t'', some name, some (h, s), t'.start)
    | _ => pure (p, t', some name, none, t.start)
  | .tag h s =>
    let p := p.skipToken
    let t' ← p.peek
    match t'.kind with
    | .anchor name =>
      let p := p.skipToken
      let t'' ← p.peek
      pure (p, t'', some name, some (h, s), t.start)
    | _ => pure (p, t', none, some (h, s), t.start)
  | _ => pure (p, t, none, none, t.start)

/-- Reads a node: an alias, a scalar, or the start of a collection. In block context a
block collection may start here; where `indentless` holds, so may a sequence whose `-` stands
at the indentation of the enclosing mapping. -/
def parseNode (p : Parser) (block indentless : Bool) : Except YamlError (Parser × Event) := do
  let t ← p.peek
  match t.kind with
  | .alias name => pure (p.popState.skipToken, ⟨.alias name, t.start⟩)
  | _ =>
    let start := t.start
    let (p, t, anchor, tagParts, tagMark) ← p.properties t
    let tag ← match tagParts with
      | none => pure none
      | some ("", suffix) => pure (some suffix)
      | some (handle, suffix) =>
        match p.tagDirectives.find? (·.1 == handle) with
        | some (_, pfx) => pure (some (pfx ++ suffix))
        | none => throw (contextError "while parsing a node" start "found undefined tag handle" tagMark)
    if indentless && t.kind == .blockEntry then
      pure ({ p with state := .indentlessSequenceEntry }, ⟨.sequenceStart anchor tag, start⟩)
    else
      match t.kind with
      | .scalar text style => pure (p.popState.skipToken, ⟨.scalar anchor tag text style, start⟩)
      | .flowSequenceStart =>
        pure ({ p with state := .flowSequenceFirstEntry }, ⟨.sequenceStart anchor tag, start⟩)
      | .flowMappingStart =>
        pure ({ p with state := .flowMappingFirstKey }, ⟨.mappingStart anchor tag, start⟩)
      | .blockSequenceStart =>
        if block then pure ({ p with state := .blockSequenceFirstEntry }, ⟨.sequenceStart anchor tag, start⟩)
        else if anchor.isSome || tag.isSome then pure (p.popState, ⟨.scalar anchor tag "" .plain, start⟩)
        else throw (contextError "while parsing a flow node" start "did not find expected node content" t.start)
      | .blockMappingStart =>
        if block then pure ({ p with state := .blockMappingFirstKey }, ⟨.mappingStart anchor tag, start⟩)
        else if anchor.isSome || tag.isSome then pure (p.popState, ⟨.scalar anchor tag "" .plain, start⟩)
        else throw (contextError "while parsing a flow node" start "did not find expected node content" t.start)
      | _ =>
        if anchor.isSome || tag.isSome then pure (p.popState, ⟨.scalar anchor tag "" .plain, start⟩)
        else
          let ctx := if block then "while parsing a block node" else "while parsing a flow node"
          throw (contextError ctx start "did not find expected node content" t.start)

/-- Reads an entry of a block sequence, or its end. -/
def blockSequenceEntry (p : Parser) (first : Bool) : Except YamlError (Parser × Event) := do
  let p ← if first then p.openCollection else pure p
  let t ← p.peek
  if t.kind == .blockEntry then
    let mark := t.stop
    let p := p.skipToken
    let t ← p.peek
    if t.kind != .blockEntry && t.kind != .blockEnd then
      (p.pushState .blockSequenceEntry).parseNode true false
    else pure ({ p with state := .blockSequenceEntry }, emptyScalar mark)
  else if t.kind == .blockEnd then
    let (p, _) := p.popMark
    pure (p.popState.skipToken, ⟨.sequenceEnd, t.start⟩)
  else
    throw (contextError "while parsing a block collection" p.topMark
      "did not find expected '-' indicator" t.start)

/-- Reads an entry of a sequence written at its mapping's indentation, or its end. -/
def indentlessSequenceEntry (p : Parser) : Except YamlError (Parser × Event) := do
  let t ← p.peek
  if t.kind == .blockEntry then
    let mark := t.stop
    let p := p.skipToken
    let t ← p.peek
    if t.kind != .blockEntry && t.kind != .key && t.kind != .value && t.kind != .blockEnd then
      (p.pushState .indentlessSequenceEntry).parseNode true false
    else pure ({ p with state := .indentlessSequenceEntry }, emptyScalar mark)
  else pure (p.popState, ⟨.sequenceEnd, t.start⟩)

/-- Reads a key of a block mapping, or its end. -/
def blockMappingKey (p : Parser) (first : Bool) : Except YamlError (Parser × Event) := do
  let p ← if first then p.openCollection else pure p
  let t ← p.peek
  if t.kind == .key then
    let mark := t.stop
    let p := p.skipToken
    let t ← p.peek
    if t.kind != .key && t.kind != .value && t.kind != .blockEnd then
      (p.pushState .blockMappingValue).parseNode true true
    else pure ({ p with state := .blockMappingValue }, emptyScalar mark)
  else if t.kind == .blockEnd then
    let (p, _) := p.popMark
    pure (p.popState.skipToken, ⟨.mappingEnd, t.start⟩)
  else
    throw (contextError "while parsing a block mapping" p.topMark "did not find expected key" t.start)

/-- Reads a value of a block mapping. -/
def blockMappingValue (p : Parser) : Except YamlError (Parser × Event) := do
  let t ← p.peek
  if t.kind == .value then
    let mark := t.stop
    let p := p.skipToken
    let t ← p.peek
    if t.kind != .key && t.kind != .value && t.kind != .blockEnd then
      (p.pushState .blockMappingKey).parseNode true true
    else pure ({ p with state := .blockMappingKey }, emptyScalar mark)
  else pure ({ p with state := .blockMappingKey }, emptyScalar t.start)

/-- Ends a flow collection at its closing token. -/
def closeFlow (p : Parser) (t : Token) (kind : EventKind) : Parser × Event :=
  let (p, _) := p.popMark
  (p.popState.skipToken, ⟨kind, t.start⟩)

/-- Reads an entry of a flow sequence, or its end. A `key` token there starts a one-pair
mapping. -/
def flowSequenceEntry (p : Parser) (first : Bool) : Except YamlError (Parser × Event) := do
  let p ← if first then p.openCollection else pure p
  let t ← p.peek
  if t.kind == .flowSequenceEnd then pure (p.closeFlow t .sequenceEnd)
  else
    let (p, t) ←
      if first then pure (p, t)
      else if t.kind == .flowEntry then do
        let p := p.skipToken
        let t ← p.peek
        pure (p, t)
      else throw (contextError "while parsing a flow sequence" p.topMark
        "did not find expected ',' or ']'" t.start)
    if t.kind == .key then
      pure ({ p.skipToken with state := .flowSequenceEntryMappingKey }, ⟨.mappingStart none none, t.start⟩)
    else if t.kind != .flowSequenceEnd then
      (p.pushState .flowSequenceEntry).parseNode false false
    else pure (p.closeFlow t .sequenceEnd)

/-- Reads the key of a one-pair mapping inside a flow sequence. -/
def flowSequenceEntryMappingKey (p : Parser) : Except YamlError (Parser × Event) := do
  let t ← p.peek
  if t.kind != .value && t.kind != .flowEntry && t.kind != .flowSequenceEnd then
    (p.pushState .flowSequenceEntryMappingValue).parseNode false false
  else pure ({ p with state := .flowSequenceEntryMappingValue }, emptyScalar t.start)

/-- Reads the value of a one-pair mapping inside a flow sequence. -/
def flowSequenceEntryMappingValue (p : Parser) : Except YamlError (Parser × Event) := do
  let t ← p.peek
  if t.kind == .value then
    let p := p.skipToken
    let t ← p.peek
    if t.kind != .flowEntry && t.kind != .flowSequenceEnd then
      (p.pushState .flowSequenceEntryMappingEnd).parseNode false false
    else pure ({ p with state := .flowSequenceEntryMappingEnd }, emptyScalar t.start)
  else pure ({ p with state := .flowSequenceEntryMappingEnd }, emptyScalar t.start)

/-- Ends a one-pair mapping inside a flow sequence. -/
def flowSequenceEntryMappingEnd (p : Parser) : Except YamlError (Parser × Event) := do
  let t ← p.peek
  pure ({ p with state := .flowSequenceEntry }, ⟨.mappingEnd, t.start⟩)

/-- Reads a key of a flow mapping, or its end. -/
def flowMappingKey (p : Parser) (first : Bool) : Except YamlError (Parser × Event) := do
  let p ← if first then p.openCollection else pure p
  let t ← p.peek
  if t.kind == .flowMappingEnd then pure (p.closeFlow t .mappingEnd)
  else
    let (p, t) ←
      if first then pure (p, t)
      else if t.kind == .flowEntry then do
        let p := p.skipToken
        let t ← p.peek
        pure (p, t)
      else throw (contextError "while parsing a flow mapping" p.topMark
        "did not find expected ',' or '\x7d'" t.start)
    if t.kind == .key then
      let p := p.skipToken
      let t ← p.peek
      if t.kind != .value && t.kind != .flowEntry && t.kind != .flowMappingEnd then
        (p.pushState .flowMappingValue).parseNode false false
      else pure ({ p with state := .flowMappingValue }, emptyScalar t.start)
    else if t.kind != .flowMappingEnd then
      (p.pushState .flowMappingEmptyValue).parseNode false false
    else pure (p.closeFlow t .mappingEnd)

/-- Reads a value of a flow mapping; after a key with no `:` the value is empty. -/
def flowMappingValue (p : Parser) (empty : Bool) : Except YamlError (Parser × Event) := do
  let t ← p.peek
  if empty then pure ({ p with state := .flowMappingKey }, emptyScalar t.start)
  else if t.kind == .value then
    let p := p.skipToken
    let t ← p.peek
    if t.kind != .flowEntry && t.kind != .flowMappingEnd then
      (p.pushState .flowMappingKey).parseNode false false
    else pure ({ p with state := .flowMappingKey }, emptyScalar t.start)
  else pure ({ p with state := .flowMappingKey }, emptyScalar t.start)

/-- One step: the next event. -/
def step (p : Parser) : Except YamlError (Parser × Event) :=
  match p.state with
  | .streamStart => do
    let t ← p.peek
    if t.kind == .streamStart then
      pure ({ p.skipToken with state := .implicitDocumentStart }, ⟨.streamStart, t.start⟩)
    else throw (parserError "did not find expected <stream-start>" t.start)
  | .implicitDocumentStart => p.documentStart true
  | .documentStart => p.documentStart false
  | .documentContent => do
    let t ← p.peek
    if t.isDirective || t.kind == .documentStart || t.kind == .documentEnd || t.kind == .streamEnd then
      pure (p.popState, emptyScalar t.start)
    else p.parseNode true false
  | .documentEnd => do
    let t ← p.peek
    let p := if t.kind == .documentEnd then p.skipToken else p
    pure ({ p with state := .documentStart, tagDirectives := [] }, ⟨.documentEnd, t.start⟩)
  | .blockNode => p.parseNode true false
  | .blockNodeOrIndentlessSequence => p.parseNode true true
  | .flowNode => p.parseNode false false
  | .blockSequenceFirstEntry => p.blockSequenceEntry true
  | .blockSequenceEntry => p.blockSequenceEntry false
  | .indentlessSequenceEntry => p.indentlessSequenceEntry
  | .blockMappingFirstKey => p.blockMappingKey true
  | .blockMappingKey => p.blockMappingKey false
  | .blockMappingValue => p.blockMappingValue
  | .flowSequenceFirstEntry => p.flowSequenceEntry true
  | .flowSequenceEntry => p.flowSequenceEntry false
  | .flowSequenceEntryMappingKey => p.flowSequenceEntryMappingKey
  | .flowSequenceEntryMappingValue => p.flowSequenceEntryMappingValue
  | .flowSequenceEntryMappingEnd => p.flowSequenceEntryMappingEnd
  | .flowMappingFirstKey => p.flowMappingKey true
  | .flowMappingKey => p.flowMappingKey false
  | .flowMappingValue => p.flowMappingValue false
  | .flowMappingEmptyValue => p.flowMappingValue true
  | .finished => do
    let t ← p.peek
    pure (p, ⟨.streamEnd, t.start⟩)

/-- Steps until the stream ends or an error. -/
def run : Nat → Parser → Array Event → Array Event × Option YamlError
  | 0, _, acc => (acc, none)
  | n + 1, p, acc =>
    match p.step with
    | .error e => (acc, some e)
    | .ok (p, ev) =>
      if ev.kind == .streamEnd then (acc.push ev, none) else run n p (acc.push ev)

end Parser

/-- The events of a text, and the error that stopped reading if there was one. Every token
gives rise to at most a few events, which bounds the steps. -/
def parseEvents (text : String) : Array Event × Option YamlError :=
  let (tokens, scanError) := tokenize text
  let p : Parser := ⟨tokens, scanError, 0, .streamStart, [], [], []⟩
  Parser.run (4 * tokens.size + 8) p #[]

end Lineage.Yaml
