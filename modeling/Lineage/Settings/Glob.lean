/-!
Glob patterns over paths.

A glob is read into tokens: `?` matches one character, `*` any run of characters (the path
separator included), `[...]` one character of a class (`[!...]` or `[^...]` one outside it;
a `]` or `-` first in the class, or a `-` last, stands for itself), `{a,b}` any one of the
alternatives (groups may nest, and a `,` outside every group is literal; a `}` with no group
open, or a group left open, is an error), and `\` makes the next character literal. A `**`
standing as a whole path component matches any number of components: `**/` at the start
matches any leading directories, `/**` at the end of the glob or of a branch a separator
and anything after it, and `/**/` inside one or more separators with anything between. A
`**` elsewhere is two `*`. A glob matches a path when it matches the
whole of it; `?`, `*` and classes stand for bytes of the path's UTF-8 text.
-/
namespace Lineage

/-- One token of a glob. -/
inductive GlobToken where
  | literal (c : Char)
  | any
  | zeroOrMore
  | recursivePrefix
  | recursiveSuffix
  | recursiveZeroOrMore
  | charClass (negated : Bool) (ranges : List (Char × Char))
  | alternates (branches : List (List GlobToken))
  deriving Repr, Inhabited

/-- Why a glob cannot be read. -/
inductive GlobError where
  | unclosedClass
  | invalidRange (lo hi : Char)
  | unopenedAlternates
  | unclosedAlternates
  | danglingEscape
  deriving Repr, DecidableEq, Inhabited

/-- What is wrong with a glob, in words. -/
def GlobError.message : GlobError → String
  | .unclosedClass => "unclosed character class; missing ']'"
  | .invalidRange lo hi => "invalid range; '" ++ lo.toString ++ "' > '" ++ hi.toString ++ "'"
  | .unopenedAlternates => "unopened alternate group; missing '\x7b' (maybe escape '\x7d' with '[\x7d]'?)"
  | .unclosedAlternates => "unclosed alternate group; missing '\x7d' (maybe escape '\x7b' with '[\x7b]'?)"
  | .danglingEscape => "dangling '\\'"

namespace Glob

/-- The reading state: the open branches (the innermost first, the outer pattern last), for
each open alternative group (the innermost first) the number of branches open outside it,
and the character read last. -/
structure Reader where
  branches : List (List GlobToken)
  groups : List Nat
  prev : Option Char

/-- Appends a token to the innermost open branch. -/
def Reader.push (r : Reader) (t : GlobToken) : Except GlobError Reader :=
  match r.branches with
  | b :: rest => .ok { r with branches := (b ++ [t]) :: rest }
  | [] => .error .unopenedAlternates

/-- Removes the last token of the innermost open branch. -/
def Reader.popToken (r : Reader) : Reader × Option GlobToken :=
  match r.branches with
  | b :: rest =>
    match b.getLast? with
    | some t => ({ r with branches := b.dropLast :: rest }, some t)
    | none => (r, none)
  | [] => (r, none)

/-- Whether the innermost open branch holds tokens. -/
def Reader.hasTokens (r : Reader) : Bool :=
  match r.branches with
  | b :: _ => !b.isEmpty
  | [] => false

/-- Whether an alternative group is open. -/
def Reader.inGroup (r : Reader) : Bool := 2 ≤ r.branches.length

/-- Opens an alternative group with its first branch. -/
def Reader.openGroup (r : Reader) : Reader :=
  { r with branches := [] :: r.branches, groups := r.branches.length :: r.groups }

/-- Starts the next branch of the innermost group. -/
def Reader.nextBranch (r : Reader) : Reader := { r with branches := [] :: r.branches }

/-- Closes the innermost group: its branches, in order, become one token of the branch
around it. A `}` with no group open is an error. -/
def Reader.closeGroup (r : Reader) : Except GlobError Reader :=
  match r.groups with
  | [] => .error .unopenedAlternates
  | outside :: groups =>
    let inner := r.branches.length - outside
    { r with branches := r.branches.drop inner, groups := groups }.push
      (.alternates (r.branches.take inner).reverse)

/-- Reads the rest of a class after `[`; gives the token and the characters after `]`. -/
def readClass (cs : List Char) : Except GlobError (GlobToken × List Char) :=
  let (negated, cs) := match cs with
    | '!' :: rest => (true, rest)
    | '^' :: rest => (true, rest)
    | _ => (false, cs)
  let rec go : List Char → Bool → Bool → List (Char × Char) →
      Except GlobError (List (Char × Char) × List Char)
    | [], _, _, _ => .error .unclosedClass
    | c :: rest, first, inRange, ranges =>
      if c == ']' && !first then
        .ok ((if inRange then ranges ++ [('-', '-')] else ranges), rest)
      else if c == '-' && !first && !inRange then go rest false true ranges
      else if inRange then
        match ranges.reverse with
        | (lo, _) :: before =>
          if c < lo then .error (.invalidRange lo c)
          else go rest false false (before.reverse ++ [(lo, c)])
        | [] => go rest false false [(c, c)]
      else go rest false false (ranges ++ [(c, c)])
  (go cs true false []).map fun (ranges, rest) => (.charClass negated ranges, rest)

/-- Reads a `*` or `**` after the first `*`; `cs` is what follows. -/
def readStar (r : Reader) (cs : List Char) : Except GlobError (Reader × List Char) :=
  let isSep := fun (c : Char) => c == '/'
  match cs with
  | '*' :: rest =>
    if !r.hasTokens then
      match rest with
      | [] => do pure ((← r.push .recursivePrefix), [])
      | c :: rest' =>
        if isSep c then do pure ((← r.push .recursivePrefix), rest')
        else do pure ((← (← r.push .zeroOrMore).push .zeroOrMore), c :: rest')
    else if !(r.prev.map isSep).getD false &&
        (!r.inGroup || (r.prev != some ',' && r.prev != some '\x7b')) then
      do pure ((← (← r.push .zeroOrMore).push .zeroOrMore), rest)
    else
      let suffix : Option (Bool × List Char) := match rest with
        | [] => some (true, [])
        | c :: rest' =>
          if (c == ',' || c == '\x7d') && r.inGroup then some (true, c :: rest')
          else if isSep c then some (false, rest')
          else none
      match suffix with
      | none => do pure ((← (← r.push .zeroOrMore).push .zeroOrMore), rest)
      | some (isSuffix, rest') =>
        let (r', last) := r.popToken
        let tok := match last with
          | some .recursivePrefix => GlobToken.recursivePrefix
          | some .recursiveSuffix => GlobToken.recursiveSuffix
          | _ => if isSuffix then GlobToken.recursiveSuffix else GlobToken.recursiveZeroOrMore
        do pure ((← r'.push tok), rest')
  | _ => do pure ((← r.push .zeroOrMore), cs)

/-- Reads the characters of a glob; the fuel is their number. Each step remembers the
character it read last, which decides how a following `**` is read. -/
def readChars : Nat → Reader → List Char → Except GlobError Reader
  | 0, r, _ => .ok r
  | _ + 1, r, [] => .ok r
  | fuel + 1, r, c :: cs =>
    match c with
    | '?' => do readChars fuel { (← r.push .any) with prev := some c } cs
    | '*' => do
      let (r1, rest) ← readStar r cs
      let last := ((c :: cs).take (cs.length - rest.length + 1)).getLast?.getD c
      readChars fuel { r1 with prev := some last } rest
    | '[' => do
      let (t, rest) ← readClass cs
      readChars fuel { (← r.push t) with prev := some ']' } rest
    | '\x7b' => readChars fuel { r.openGroup with prev := some c } cs
    | '\x7d' => do readChars fuel { (← r.closeGroup) with prev := some c } cs
    | ',' =>
      if r.groups.isEmpty then do readChars fuel { (← r.push (.literal ',')) with prev := some c } cs
      else readChars fuel { r.nextBranch with prev := some c } cs
    | '\\' =>
      match cs with
      | [] => .error .danglingEscape
      | e :: rest => do readChars fuel { (← r.push (.literal e)) with prev := some e } rest
    | _ => do readChars fuel { (← r.push (.literal c)) with prev := some c } cs

/-- Reads a glob into tokens. -/
def parse (glob : String) : Except GlobError (List GlobToken) := do
  let cs := glob.toList
  let r ← readChars (cs.length + 1) ⟨[[]], [], none⟩ cs
  match r.branches with
  | [] => .error .unopenedAlternates
  | [tokens] => .ok tokens
  | _ => .error .unclosedAlternates

/-- The bytes of a character's UTF-8 encoding. -/
def charBytes (c : Char) : List UInt8 :=
  c.toString.toUTF8.toList

/-- The byte ranges a class stands for. Matching is over the bytes of the path, so a class
names bytes: a character outside ASCII contributes each byte of its encoding, and a range
between two such characters runs from the last byte of the first to the first byte of the
second. -/
def classBytes (ranges : List (Char × Char)) : List (UInt8 × UInt8) :=
  ranges.flatMap fun (lo, hi) =>
    if lo == hi then (charBytes lo).map fun b => (b, b)
    else
      let l := charBytes lo
      let h := charBytes hi
      (l.dropLast.map fun b => (b, b)) ++ [((l.getLast?.getD 0), (h.head?.getD 0))] ++
        (h.drop 1).map fun b => (b, b)

/-- Whether a byte lies in one of the ranges. -/
def inRanges (ranges : List (UInt8 × UInt8)) (b : UInt8) : Bool :=
  ranges.any fun (lo, hi) => lo ≤ b && b ≤ hi

/-- The separator byte. -/
def slash : UInt8 := 47

/-- Whether tokens stand for nothing at all: each is an alternative group whose branches all
stand for nothing. -/
def isVoid : List GlobToken → Bool
  | [] => true
  | .alternates bs :: ts => (bs.attach.all fun ⟨b, _⟩ => isVoid b) && isVoid ts
  | _ :: _ => false

/-- Whether the tokens match the whole of the bytes `bs`. Every call takes one token off the
list (an alternative group gives way to one of its branches), so the fuel needed is the
tokens' weight. The branches of a group that stand for nothing are left out of it, and a
group left with no branch matches the empty text. A `**` ending a path component is a
separator followed by anything. -/
def matchTokens : Nat → List GlobToken → List UInt8 → Bool
  | 0, _, _ => false
  | _ + 1, [], bs => bs.isEmpty
  | fuel + 1, t :: ts, bs =>
    match t with
    | .literal c =>
      let cb := charBytes c
      cb.isPrefixOf bs && matchTokens fuel ts (bs.drop cb.length)
    | .any => match bs with
      | _ :: rest => matchTokens fuel ts rest
      | [] => false
    | .charClass negated ranges => match bs with
      | b :: rest => (inRanges (classBytes ranges) b != negated) && matchTokens fuel ts rest
      | [] => false
    | .zeroOrMore => (List.range (bs.length + 1)).any fun i => matchTokens fuel ts (bs.drop i)
    | .recursivePrefix =>
      matchTokens fuel ts bs ||
        (List.range bs.length).any fun i => bs[i]? == some slash && matchTokens fuel ts (bs.drop (i + 1))
    | .recursiveSuffix =>
      bs.head? == some slash && (List.range bs.length).any fun i => matchTokens fuel ts (bs.drop (i + 1))
    | .recursiveZeroOrMore =>
      bs.head? == some slash &&
        (List.range bs.length).any fun i => bs[i]? == some slash && matchTokens fuel ts (bs.drop (i + 1))
    | .alternates branches =>
      let live := branches.filter fun b => !isVoid b
      if live.isEmpty then matchTokens fuel ts bs
      else live.any fun b => matchTokens fuel (b ++ ts) bs

/-- The number of tokens, counting those in alternative branches. -/
def weight : List GlobToken → Nat
  | [] => 0
  | .alternates bs :: ts =>
    1 + (bs.attach.map fun ⟨b, _⟩ => weight b).foldr (· + ·) 0 + weight ts
  | _ :: ts => 1 + weight ts

/-- Whether a glob's tokens match a whole path. A glob that is only a leading `**` matches
every path. -/
def matchesPath (tokens : List GlobToken) (path : String) : Bool :=
  match tokens with
  | [.recursivePrefix] => true
  | _ => matchTokens (weight tokens + 1) tokens path.toUTF8.toList

end Glob

end Lineage
