import Lineage.Pattern.Search
import Lineage.Scan.Shapes
/-!
The shapes of Java declarations, as patterns.

The declaration pattern reads the modifiers (annotations and modifier keywords) and then
one of four forms, tried in this order:

* a named type: `class`, `interface`, `record` or `enum`, its name, type parameters, a
  record header, `extends`, `implements` and `permits` clauses, and a flat body;
* an anonymous class: `new`, the super type, its arguments and a flat body;
* a method: type parameters, a return type, the name, the parameters, a `throws` clause,
  and `;` or a flat body;
* a constructor: as a method without a return type, always with a flat body.

A flat body holds no unmasked braces, so the scanner finds declarations innermost first.
-/
namespace Lineage.Java

open Pattern Scan

/-- The modifier keywords, as whole words. -/
def modifierKeyword : Pattern :=
  wordBoundary ++ words ["abstract", "default", "final", "native", "non-sealed", "open",
    "private", "protected", "public", "static", "sealed", "strictfp", "synchronized",
    "transient", "volatile"] ++ wordBoundary

/-- The reserved words of Java. -/
def reservedWords : List String :=
  ["abstract", "assert", "boolean", "break", "byte", "case", "catch", "char", "class",
   "const", "continue", "default", "do", "double", "else", "enum", "extends", "final",
   "finally", "float", "for", "if", "goto", "implements", "import", "instanceof", "int",
   "interface", "long", "native", "new", "package", "private", "protected", "public",
   "return", "short", "static", "strictfp", "super", "switch", "synchronized", "this",
   "throw", "throws", "transient", "try", "void", "volatile", "while"]

/-- The reserved words that may still begin a type. -/
def primitiveTypes : List String :=
  ["boolean", "byte", "char", "double", "float", "int", "long", "short", "void"]

/-- Whether a word is reserved. -/
def isReserved (w : String) : Bool := reservedWords.contains w

/-- Whether a word can never begin a type: a reserved word other than a primitive type,
or `yield`, so that a statement `yield f(x);` never reads as a declaration. -/
def isReservedNonType (w : String) : Bool :=
  (isReserved w && !primitiveTypes.contains w) || w == "yield"

/-- A dotted name. -/
def fqName : Pattern := identifier ++ many (blanks ++ lit "." ++ blanks ++ identifier)

/-- A parenthesised expression. -/
def paren : Pattern := bracket '(' ')'

/-- Type arguments or parameters in angle brackets. -/
def typeArgs : Pattern := bracket '<' '>'

/-- An annotation with optional arguments, and the blanks after it. -/
def annotationItem : Pattern := lit "@" ++ blanks ++ fqName ++ opt (blanks ++ paren) ++ blanks

/-- A type: a dotted name, type arguments, and array dimensions, which may be annotated. -/
def typeUse : Pattern :=
  fqName ++ opt (blanks ++ typeArgs) ++
    many (blanks ++ many annotationItem ++ lit "[" ++ blanks ++ lit "]")

/-- A type with annotations before it. -/
def annotatedTypeUse : Pattern := many annotationItem ++ typeUse

/-- A comma-separated list of annotated types. -/
def typeList : Pattern :=
  annotatedTypeUse ++ many (blanks ++ lit "," ++ blanks ++ annotatedTypeUse)

/-- The modifiers before a declaration, as the group `modifiers`. -/
def modifiers : Pattern := group "modifiers" (many (annotationItem <|> (modifierKeyword ++ blanks)))

/-- The inside of an argument or parameter list. -/
def args : Pattern := many (noneOf "()" <|> paren)

/-- An optional clause: a keyword, blanks, and a type list as the named group. -/
def clause (keyword name : String) : Pattern :=
  opt (wordBoundary ++ lit keyword ++ blanks1 ++ group name typeList ++ blanks)

/-- A named type declaration with its flat body. -/
def namedType : Pattern :=
  group "type" (wordBoundary ++ group "construct" (words ["class", "interface", "record", "enum"])
    ++ blanks1 ++ group "typeName" identifier ++ blanks ++ opt (group "typeParams" typeArgs)
    ++ blanks ++ opt (group "recordHeader" (paren ++ blanks))
    ++ clause "extends" "extends" ++ clause "implements" "implements"
    ++ clause "permits" "permits" ++ flatBlock)

/-- An anonymous class with its flat body. -/
def anonymousClass : Pattern :=
  group "anon" (wordBoundary ++ lit "new" ++ blanks1 ++ group "superType" annotatedTypeUse
    ++ opt (group "anonTypeArgs" typeArgs) ++ blanks ++ lit "(" ++ args ++ lit ")" ++ blanks
    ++ flatBlock)

/-- A method declaration, with `;` or a flat body. -/
def method : Pattern :=
  group "method" (opt (group "methodTypeParams" typeArgs) ++ blanks
    ++ group "returnType" typeUse ++ blanks1 ++ group "methodName" identifier ++ blanks
    ++ lit "(" ++ group "params" args ++ lit ")" ++ blanks ++ clause "throws" "throws"
    ++ (lit ";" <|> flatBlock))

/-- A constructor declaration with its flat body. -/
def constructor : Pattern :=
  group "ctor" (opt (group "ctorTypeParams" typeArgs) ++ blanks ++ group "ctorName" identifier
    ++ blanks ++ lit "(" ++ group "ctorParams" args ++ lit ")" ++ blanks
    ++ clause "throws" "ctorThrows" ++ flatBlock)

/-- A declaration: modifiers, then a named type, an anonymous class, a method or a
constructor, preferred in that order. -/
def declaration : Pattern := modifiers ++ alts [namedType, anonymousClass, method, constructor]

/-- A formal parameter: modifiers, type, an optional `...`, and the name. -/
def parameter : Pattern :=
  modifiers ++ group "type" typeUse ++ blanks
    ++ opt (group "vararg" (many annotationItem ++ lit "..." ++ blanks)) ++ group "name" identifier

/-- Comments, text blocks, and string and character literals. -/
def literal : Pattern :=
  alts [
    lit "//" ++ many notNewline,
    lit "/*" ++ many (noneOf "*") ++ many1 (lit "*")
      ++ many (noneOf "/*" ++ many (noneOf "*") ++ many1 (lit "*")) ++ lit "/",
    lit "\"\"\"" ++ manyLazy anyChar ++ lit "\"\"\"",
    lit "\"" ++ many (noneOf "\"\\\n" <|> (lit "\\" ++ notNewline)) ++ lit "\"",
    lit "'" ++ many (noneOf "'\\\n" <|> (lit "\\" ++ notNewline)) ++ lit "'"]

/-- A package declaration. -/
def packageDecl : Pattern :=
  wordBoundary ++ lit "package" ++ blanks1 ++ group "name" fqName ++ blanks ++ lit ";"

/-- An import declaration, possibly static, possibly of all members. -/
def importDecl : Pattern :=
  wordBoundary ++ lit "import" ++ blanks1 ++ opt (group "static" (lit "static" ++ blanks1))
    ++ group "name" fqName ++ opt (group "wildcard" (blanks ++ lit "." ++ blanks ++ lit "*"))
    ++ blanks ++ lit ";"

/-- A modifier: an annotation or a modifier keyword. -/
def modifierItem : Pattern := annotationItem <|> modifierKeyword

/-- Comments, text blocks, and string and character literals, compiled. -/
def literalProgram : Program := literal.compile

/-- The package declaration, compiled. -/
def packageProgram : Program := packageDecl.compile

/-- An import declaration, compiled. -/
def importProgram : Program := importDecl.compile

/-- An annotation with its arguments, compiled. -/
def annotationProgram : Program := annotationItem.compile

/-- One modifier (an annotation or a keyword), compiled. -/
def modifierProgram : Program := modifierItem.compile

/-- A type as written in a declaration, compiled. -/
def typeProgram : Program := typeUse.compile

/-- One formal parameter, compiled. -/
def parameterProgram : Program := parameter.compile

/-- The head of a type, method or constructor declaration, compiled. -/
def declarationProgram : Program := declaration.compile

/-- A brace block with no braces inside, compiled. -/
def blockProgram : Program := flatBlock.compile

end Lineage.Java
