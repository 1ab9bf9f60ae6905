import Lineage.Pattern.Basic
/-!
Patterns compiled to programs.

A program is an array of instructions run by a machine that holds an offset into the text
and a program counter:

* `chars s` reads one character of `s` and goes on to the next instruction;
* `split first second` goes on at `first`, and at `second` only if that fails;
* `jump target` goes on at `target`;
* `save slot` records the current offset in `slot`;
* `wordBoundary` and `lineStart` go on only where the assertion holds;
* `balanced o c limit` reads a balanced expression and goes on after it;
* `accept` ends with a match.

Group `k` (counting from 1 in the order the groups open, group 0 being the whole match)
records its start in slot `2k` and its stop in slot `2k + 1`. The preference order of
`split` is the preference order of the pattern, so the first accepting run is the match
the pattern prefers.

A program also keeps the characters its pattern may read first, unless the pattern may match
without reading any: a search need not try an offset whose character is not among them.
-/
namespace Lineage

/-- One instruction of a compiled pattern; see the module comment. -/
inductive Inst where
  | chars (s : CharSet)
  | split (first second : Nat)
  | jump (target : Nat)
  | save (slot : Nat)
  | wordBoundary
  | lineStart
  | balanced (o c : Char) (limit : Nat)
  | accept
  deriving Repr, Inhabited

/-- A compiled pattern: its instructions, the names of its groups in opening order, and the
characters a match may read first (`none` when a match may read nothing). -/
structure Program where
  code : Array Inst
  groups : Array String
  first : Option CharSet
  deriving Repr, Inhabited

namespace Pattern

/-- The group number of a name: its place among the names seen so far, counting from 1,
or a new number after them. -/
def groupNumber (names : Array String) (name : String) : Nat × Array String :=
  match names.idxOf? name with
  | some i => (i + 1, names)
  | none => (names.size + 1, names.push name)

/-- Appends the instructions of a pattern to `code`, registering its group names. -/
def emit : Pattern → Array Inst → Array String → Array Inst × Array String
  | .empty, code, names => (code, names)
  | .chars s, code, names => (code.push (.chars s), names)
  | .seq p q, code, names =>
    let (code, names) := emit p code names
    emit q code names
  | .alt p q, code, names =>
    let fork := code.size
    let (code, names) := emit p (code.push (.split 0 0)) names
    let skip := code.size
    let (code, names) := emit q (code.push (.jump 0)) names
    let code := code.setIfInBounds fork (.split (fork + 1) (skip + 1))
    (code.setIfInBounds skip (.jump code.size), names)
  | .star p greedy, code, names =>
    let fork := code.size
    let (code, names) := emit p (code.push (.split 0 0)) names
    let code := code.push (.jump fork)
    let exit := code.size
    let choice := if greedy then Inst.split (fork + 1) exit else Inst.split exit (fork + 1)
    (code.setIfInBounds fork choice, names)
  | .group name p, code, names =>
    let (k, names) := groupNumber names name
    let (code, names) := emit p (code.push (.save (2 * k))) names
    (code.push (.save (2 * k + 1)), names)
  | .wordBoundary, code, names => (code.push .wordBoundary, names)
  | .lineStart, code, names => (code.push .lineStart, names)
  | .balanced o c limit, code, names => (code.push (.balanced o c limit), names)

/-- The characters a match of the pattern may read first, and whether a match may read
nothing. Assertions read nothing. -/
def firstChars : Pattern → CharSet × Bool
  | .empty => (⟨#[]⟩, true)
  | .chars s => (s, false)
  | .seq p q =>
    let (a, na) := firstChars p
    let (b, nb) := firstChars q
    (if na then a.union b else a, na && nb)
  | .alt p q =>
    let (a, na) := firstChars p
    let (b, nb) := firstChars q
    (a.union b, na || nb)
  | .star p _ => ((firstChars p).1, true)
  | .group _ p => firstChars p
  | .wordBoundary => (⟨#[]⟩, true)
  | .lineStart => (⟨#[]⟩, true)
  | .balanced o _ _ => (CharSet.range o o, false)

/-- The program of a pattern: the whole match is group 0, then the pattern, then
`accept`. -/
def compile (p : Pattern) : Program :=
  let (code, names) := emit p #[Inst.save 0] #[]
  let (first, nullable) := firstChars p
  ⟨(code.push (.save 1)).push .accept, names, if nullable then none else some first⟩

end Pattern

end Lineage
