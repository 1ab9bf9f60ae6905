import Lineage.Corpus
/-!
Commands that find polymorphic call sites.

For each project type that has subtypes, the report suggests one shell command that finds
calls of the type's methods, and, when there are several such types, one command for all of
them together. A command runs `ack` or `grep` with the language's file option, the
language's call pattern and the search path, each quoted for a POSIX shell.
-/
namespace Lineage

/-- The search tool whose commands are suggested. -/
inductive SearchTool where
  | ack
  | grep
  deriving Repr, DecidableEq, Inhabited

/-- The tool's name in configuration and data output. -/
def SearchTool.name : SearchTool → String
  | .ack => "ack"
  | .grep => "grep"

/-- Quotes a text for a POSIX shell: inside single quotes, each single quote written as
`'\''`. -/
def shellQuote (s : String) : String :=
  "'" ++ String.join (s.toList.map fun c => if c == '\'' then "'\\''" else c.toString) ++ "'"

/-- The command that searches `path` for calls of the targets. -/
def searchCommand (tool : SearchTool) (l : Language) (targets : List CallTarget)
    (path : String) : String :=
  let pattern := shellQuote (l.callPattern targets)
  match tool with
  | .ack => "ack -C10 " ++ l.ackOption ++ " " ++ pattern ++ " " ++ shellQuote path
  | .grep => "grep -nPR -C10 --color=auto " ++ l.grepOption ++ " " ++ pattern ++ " " ++
      shellQuote path

/-- The call targets of method nodes: each method's name and its return type's text. -/
def callTargets (tree : SymbolTree) (h : Hierarchy) (ms : List Nat) : List CallTarget :=
  ms.map fun m =>
    let mn := h.method m
    { name := mn.name,
      returnType := ((tree.get mn.symbol).methodInfo?.bind (·.returnType)).map (·.display) }

/-- Sorts nodes by name, and equal names by index. -/
def sortByName (h : Hierarchy) (ns : List Nat) : List Nat :=
  ns.mergeSort fun a b =>
    let x := (h.node a).name
    let y := (h.node b).name
    x < y || (x == y && a ≤ b)

/-- The text of the suggested commands for a codebase and its hierarchy. -/
def searchReport (cb : Codebase) (h : Hierarchy) (tool : SearchTool) (path : String) :
    String :=
  let tree := cb.tree
  let l := cb.language
  let header := "\nCommands for finding polymorphic " ++ l.displayName ++ " method calls\n" ++
    "(Copy and paste one of the following commands to find method call sites for a " ++
    "particular superclass/interface, or for all superclasses/interfaces at once.)\n\n"
  let supers := sortByName h ((List.range h.types.size).filter fun i =>
    let n := h.node i
    !n.isExternal && !n.children.isEmpty)
  if supers.isEmpty then
    header ++ "  [No superclasses or interfaces defined; no polymorphism is possible!]\n"
  else
    let each := supers.map fun ty =>
      let n := h.node ty
      let typeParams := ((n.symbol.bind fun s => (tree.get s).typeParams)).getD ""
      let title := n.construct ++ " " ++ n.name ++ typeParams ++ ":\n"
      let body := if n.methods.isEmpty then
          "  [No methods overridden in subclasses; no polymorphism is possible!]\n"
        else
          "\n  " ++ searchCommand tool l (callTargets tree h n.methods.toList) path ++ "\n"
      title ++ body ++ "\n\n"
    let together := if supers.length > 1 then
        let all := supers.flatMap fun ty => (h.node ty).methods.toList
        "All together:\n\n  " ++ searchCommand tool l (callTargets tree h all) path ++ "\n\n"
      else ""
    header ++ String.join each ++ together

end Lineage
