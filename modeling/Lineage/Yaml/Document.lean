import Lineage.Yaml.Event
/-!
Loading the first document of a YAML stream.

The node events of the first document are gathered in order, each with its position. An
alias is replaced by the place of the event its anchor marks, so that reading an alias
means reading that node again; an alias whose anchor has not been seen cuts the document
short. A stream with no document at all gives a single `void` item, which reads as an empty
value. A syntax error inside the document also cuts it short: the items before it are kept,
and the error is what a reader meets when it runs past them.

Whether a second document follows is recorded too: a reader of one document rejects a
stream with more.
-/
namespace Lineage.Yaml

/-- A node event of a loaded document. -/
inductive Item where
  | scalar (text : String) (style : ScalarStyle) (tag : Option String)
  | sequenceStart (tag : Option String)
  | sequenceEnd
  | mappingStart (tag : Option String)
  | mappingEnd
  | alias (target : Nat)
  | void
  deriving Repr, Inhabited, BEq

/-- The first document of a stream: its items with their positions, the message of the
error that cut it short (if any), and whether another document follows. -/
structure Document where
  items : Array (Item × Mark)
  error : Option String
  more : Bool
  deriving Inhabited

/-- The message for an alias with no anchor. -/
def unknownAnchorMessage (m : Mark) : String :=
  "unknown anchor" ++ (if m.isSet then " at " ++ m.render else "")

/-- Records an anchor as naming the item about to be added. -/
def noteAnchor (anchors : List (String × Nat)) (anchor : Option String) (place : Nat) :
    List (String × Nat) :=
  match anchor with
  | some name => (name, place) :: anchors
  | none => anchors

/-- Gathers the items of the first document from the events. Gives the items, the message of
an error that ended them early, and the events after the document. -/
def gather : List Event → Array (Item × Mark) → List (String × Nat) → Option YamlError →
    Array (Item × Mark) × Option String × List Event
  | [], items, _, err => (items, some ((err.map YamlError.message).getD "EOF while parsing a value"), [])
  | ev :: rest, items, anchors, err =>
    match ev.kind with
    | .streamStart => gather rest items anchors err
    | .documentStart => gather rest items anchors err
    | .documentEnd => (items, none, rest)
    | .streamEnd => ((if items.isEmpty then items.push (.void, ev.start) else items), none, [ev])
    | .alias name =>
      match anchors.lookup name with
      | some target => gather rest (items.push (.alias target, ev.start)) anchors err
      | none => (items, some (unknownAnchorMessage ev.start), [])
    | .scalar anchor tag text style =>
      gather rest (items.push (.scalar text style tag, ev.start))
        (noteAnchor anchors anchor items.size) err
    | .sequenceStart anchor tag =>
      gather rest (items.push (.sequenceStart tag, ev.start)) (noteAnchor anchors anchor items.size) err
    | .sequenceEnd => gather rest (items.push (.sequenceEnd, ev.start)) anchors err
    | .mappingStart anchor tag =>
      gather rest (items.push (.mappingStart tag, ev.start)) (noteAnchor anchors anchor items.size) err
    | .mappingEnd => gather rest (items.push (.mappingEnd, ev.start)) anchors err

/-- Loads the first document of a text. After it, another document follows unless the
stream ends there; an error after it also counts as one. -/
def load (text : String) : Document :=
  let (events, err) := parseEvents text
  let (items, cut, rest) := gather events.toList #[] [] err
  let more := match rest with
    | [] => true
    | ev :: _ => ev.kind != .streamEnd
  ⟨items, cut, more⟩

/-- The item at a place; past the end, the error that cut the document short. -/
def Document.get (d : Document) (pos : Nat) : Except String (Item × Mark) :=
  match d.items[pos]? with
  | some x => .ok x
  | none => .error (d.error.getD "EOF while parsing a value")

end Lineage.Yaml
