import Lineage.Report.Search
/-!
Search commands read by a shell.

A suggested command is one line for a POSIX shell. `Shell.words` reads a line as the shell
reads a simple command into its words: blanks outside quotes part the words; single quotes
keep every character up to the next single quote; double quotes keep every character but
`"`, and a backslash in them escapes `$`, a backquote, `"`, a backslash and a line feed; a
backslash outside quotes keeps the character after it, and removes a line feed after it;
the quotes and the escaping backslashes are removed. A line the reader does not take as a
list of words (an operator, an expansion, a comment, an open quote or a backslash at the end)
has no reading.

Quoting writes each single quote of a text as `'\''`: the quote closes, an escaped quote is
read, and the quote opens again (`Shell.run_quoted`). So a quoted text is read as the one word
it quotes, whatever characters it holds (`Shell.words_shellQuote`).

* `searchCommand_words`: every suggested command, for each tool and language, any call
  targets and any path, is read as the tool's name, its options, the call pattern and the
  path, each one word.
-/
namespace Lineage

namespace Shell

/-- Where the reader of a command line stands. -/
inductive Mode where
  /-- Between words. -/
  | between
  /-- Inside a word, outside quotes. -/
  | unquoted
  /-- Inside single quotes. -/
  | single
  /-- Inside double quotes. -/
  | double
  /-- After a backslash outside quotes, inside a word or not. -/
  | escaped (inWord : Bool)
  /-- After a backslash inside double quotes. -/
  | doubleEscaped
  deriving DecidableEq, Repr

/-- The reader's state: where it stands, the characters of the word it reads, and the words
read before. -/
structure Reader where
  mode : Mode
  word : List Char
  words : List String
  deriving DecidableEq, Repr

/-- The characters that end a simple command outside quotes: the control and redirection
operators and the line feed. -/
def isOperator (c : Char) : Bool := "|&;<>()\n".toList.contains c

/-- Whether a character is a blank, which parts words outside quotes. -/
def isBlank (c : Char) : Bool := c == ' ' || c == '\t'

/-- A character outside quotes that is not a blank: a quote or a backslash opens its form,
an operator or an expansion is not read, and any other character joins the word. -/
def outside (r : Reader) (c : Char) : Option Reader :=
  if c = '\'' then some { r with mode := .single }
  else if c = '"' then some { r with mode := .double }
  else if c = '\\' then some { r with mode := .escaped (r.mode == .unquoted) }
  else if isOperator c || c == '$' || c == '`' then none
  else some { r with mode := .unquoted, word := r.word ++ [c] }

/-- Reads one character. -/
def step (r : Reader) (c : Char) : Option Reader :=
  match r.mode with
  | .between =>
    if isBlank c then some r
    else if c = '#' then none
    else outside r c
  | .unquoted =>
    if isBlank c then some ⟨.between, [], r.words ++ [String.ofList r.word]⟩
    else outside r c
  | .single =>
    if c = '\'' then some { r with mode := .unquoted }
    else some { r with word := r.word ++ [c] }
  | .double =>
    if c = '"' then some { r with mode := .unquoted }
    else if c = '\\' then some { r with mode := .doubleEscaped }
    else if c == '$' || c == '`' then none
    else some { r with word := r.word ++ [c] }
  | .escaped inWord =>
    if c = '\n' then some { r with mode := if inWord then .unquoted else .between }
    else some { r with mode := .unquoted, word := r.word ++ [c] }
  | .doubleEscaped =>
    if c = '\n' then some { r with mode := .double }
    else if c == '$' || c == '`' || c == '"' || c == '\\' then
      some { r with mode := .double, word := r.word ++ [c] }
    else some { r with mode := .double, word := r.word ++ ['\\', c] }

/-- Reads the characters in order. -/
def run : Reader → List Char → Option Reader
  | r, [] => some r
  | r, c :: cs => (step r c).bind fun r' => run r' cs

/-- The words read, once the line has ended outside quotes and escapes. -/
def finish (r : Reader) : Option (List String) :=
  match r.mode with
  | .between => some r.words
  | .unquoted => some (r.words ++ [String.ofList r.word])
  | _ => none

/-- The words of a command line, with quotes removed. -/
def words (line : String) : Option (List String) :=
  (run ⟨.between, [], []⟩ line.toList).bind finish

/-- Blanks part words, and quotes and escapes are removed. -/
example : words "a 'b'\\''c' \"d\\$\" e\\ f" = some ["a", "b'c", "d$", "e f"] := by decide

/-- Reading two pieces of a line reads the second from where the first leaves off. -/
theorem run_append (r : Reader) (a b : List Char) :
    run r (a ++ b) = (run r a).bind fun r' => run r' b := by
  induction a generalizing r with
  | nil => rfl
  | cons c cs ih =>
    simp only [List.cons_append, run]
    cases step r c with
    | none => rfl
    | some r' => exact ih r'

/-- What quoting writes for one character inside single quotes. -/
def quoteChar (c : Char) : List Char := if c == '\'' then "'\\''".toList else [c]

/-- Inside single quotes, the quoted form of each character adds that character to the word,
and the reader stands inside single quotes again: a single quote is closed, escaped and
opened again. -/
theorem run_quoteChars (cur : List Char) (ws : List String) (t : List Char) :
    run ⟨.single, cur, ws⟩ (t.flatMap quoteChar) = some ⟨.single, cur ++ t, ws⟩ := by
  induction t generalizing cur with
  | nil => simp [run]
  | cons c cs ih =>
    rw [List.flatMap_cons, run_append]
    by_cases hc : c = '\''
    · subst hc
      have hstep :
          run ⟨.single, cur, ws⟩ (quoteChar '\'') = some ⟨.single, cur ++ ['\''], ws⟩ := rfl
      rw [hstep, Option.bind_some, ih, List.append_assoc, List.singleton_append]
    · have hstep : run ⟨.single, cur, ws⟩ (quoteChar c) = some ⟨.single, cur ++ [c], ws⟩ := by
        simp [quoteChar, run, step, hc]
      rw [hstep, Option.bind_some, ih, List.append_assoc, List.singleton_append]

theorem toList_shellQuote (t : String) :
    (shellQuote t).toList = '\'' :: t.toList.flatMap quoteChar ++ ['\''] := by
  have hq : (fun c => (if c == '\'' then "'\\''" else c.toString).toList) = quoteChar := by
    funext c
    by_cases hc : c = '\'' <;> simp [quoteChar, hc]
  simp only [shellQuote, String.toList_append, String.toList_join, List.flatMap_map]
  rw [hq]
  rfl

/-- A quoted text, met between words or inside an unquoted word, adds the text to the word,
and the reader stands inside the word. -/
theorem run_quoted (t : String) (ws : List String) {m : Mode} {cur : List Char}
    (hm : m = .between ∧ cur = [] ∨ m = .unquoted) :
    run ⟨m, cur, ws⟩ (shellQuote t).toList = some ⟨.unquoted, cur ++ t.toList, ws⟩ := by
  -- the opening quote starts the word, or goes on with it
  have hopen : step ⟨m, cur, ws⟩ '\'' = some ⟨.single, cur, ws⟩ := by
    rcases hm with ⟨rfl, rfl⟩ | rfl <;> rfl
  rw [toList_shellQuote, List.cons_append, run, hopen, Option.bind_some, run_append,
    run_quoteChars]
  rfl

/-- A quoted text alone is read as the one word it quotes. -/
theorem words_shellQuote (t : String) : words (shellQuote t) = some [t] := by
  rw [words, run_quoted t [] (Or.inl ⟨rfl, rfl⟩)]
  simp [finish]

/-- A line of words that ends in two quoted texts with a blank between them is read as its
words before them and the two texts. -/
theorem words_of_quoted_pair (pre : List Char) (ws : List String) {line : String} {a b : String}
    (hline : line.toList = pre ++ (shellQuote a).toList ++ ' ' :: (shellQuote b).toList)
    (hpre : run ⟨.between, [], []⟩ pre = some ⟨.between, [], ws⟩) :
    words line = some (ws ++ [a, b]) := by
  have hblank : step ⟨.unquoted, a.toList, ws⟩ ' ' = some ⟨.between, [], ws ++ [a]⟩ := by
    simp [step, isBlank]
  rw [words, hline, run_append, run_append, hpre, Option.bind_some,
    run_quoted a ws (Or.inl ⟨rfl, rfl⟩), Option.bind_some, run, List.nil_append, hblank,
    Option.bind_some, run_quoted b (ws ++ [a]) (Or.inl ⟨rfl, rfl⟩)]
  simp [finish]

end Shell

/-- An `ack` command: its options, then the quoted pattern and the quoted path. -/
theorem toList_searchCommand_ack (l : Language) (targets : List CallTarget) (path : String) :
    (searchCommand .ack l targets path).toList = ("ack -C10 " ++ l.ackOption ++ " ").toList ++
      (shellQuote (l.callPattern targets)).toList ++ ' ' :: (shellQuote path).toList := by
  have hcmd : searchCommand .ack l targets path = "ack -C10 " ++ l.ackOption ++ " " ++
      shellQuote (l.callPattern targets) ++ " " ++ shellQuote path := rfl
  rw [hcmd, String.toList_append, String.toList_append, String.toList_append,
    show " ".toList = [' '] by decide, List.append_assoc _ [' '], List.singleton_append]

/-- A `grep` command: its options, then the quoted pattern and the quoted path. -/
theorem toList_searchCommand_grep (l : Language) (targets : List CallTarget) (path : String) :
    (searchCommand .grep l targets path).toList =
      ("grep -nPR -C10 --color=auto " ++ l.grepOption ++ " ").toList ++
      (shellQuote (l.callPattern targets)).toList ++ ' ' :: (shellQuote path).toList := by
  have hcmd : searchCommand .grep l targets path = "grep -nPR -C10 --color=auto " ++ l.grepOption ++
      " " ++ shellQuote (l.callPattern targets) ++ " " ++ shellQuote path := rfl
  rw [hcmd, String.toList_append, String.toList_append, String.toList_append,
    show " ".toList = [' '] by decide, List.append_assoc _ [' '], List.singleton_append]

open Shell in
/-- Every suggested search command is read by a shell as the words it is meant to pass: for
`ack`, the tool, the context option, the language's file option, the call pattern and the
path; for `grep`, the tool, its options, the file pattern of the language without its quotes,
the call pattern and the path; whatever the call targets and the path hold. A quoted text
alone is read as itself. -/
theorem searchCommand_words (targets : List CallTarget) (path : String) :
    words (searchCommand .ack .java targets path) =
      some ["ack", "-C10", "--java", Language.java.callPattern targets, path] ∧
    words (searchCommand .ack .python targets path) =
      some ["ack", "-C10", "--python", Language.python.callPattern targets, path] ∧
    words (searchCommand .grep .java targets path) =
      some ["grep", "-nPR", "-C10", "--color=auto", "--include=*.java",
        Language.java.callPattern targets, path] ∧
    words (searchCommand .grep .python targets path) =
      some ["grep", "-nPR", "-C10", "--color=auto", "--include=*.py",
        Language.python.callPattern targets, path] ∧
    ∀ t : String, words (shellQuote t) = some [t] := by
  refine ⟨?_, ?_, ?_, ?_, words_shellQuote⟩
  · exact words_of_quoted_pair _ ["ack", "-C10", "--java"] (toList_searchCommand_ack _ _ _) (by decide)
  · exact words_of_quoted_pair _ ["ack", "-C10", "--python"] (toList_searchCommand_ack _ _ _)
      (by decide)
  · exact words_of_quoted_pair _ ["grep", "-nPR", "-C10", "--color=auto", "--include=*.java"]
      (toList_searchCommand_grep _ _ _) (by decide)
  · exact words_of_quoted_pair _ ["grep", "-nPR", "-C10", "--color=auto", "--include=*.py"]
      (toList_searchCommand_grep _ _ _) (by decide)

end Lineage
