/-
The command line: which command its words ask for.

A word that starts with a dash is an option, and the only option known asks
for help. `--` ends the options: it is dropped, and every word after it
stands for itself. This holds for the words up to the name of a command and
once more, from the start, for the words after it.
-/

namespace Lox

/-- What the program can be asked to do. -/
inductive Command where
  /-- Run a script. -/
  | file (path : String)
  /-- Run lines as they are typed. -/
  | repl
  /-- Print the tokens of a script. -/
  | tokens (path : String)
  /-- Print the trees of a script. -/
  | ast (path : String)
deriving DecidableEq

/-- What is wrong with the words of a command line. -/
inductive UsageError where
  | missingCommand
  | unknownCommand (word : String)
  | missingPath
  | unexpectedArgument (word : String)
  | help
deriving DecidableEq

namespace UsageError

/-- What is shown to those who ask for help. -/
def helpText : String :=
  "Usage: loxer <COMMAND>\n\n" ++
  "Commands:\n" ++
  "    file    Run a script\n" ++
  "    repl    Input prompt\n" ++
  "    tokens  Print the tokens of a script, one per line\n" ++
  "    ast     Print the syntax tree of every statement in a script\n\n" ++
  "A scanner, parser and tree-walk interpreter for Lox.\n"

/-- What is said of a wrong command line. -/
def message : UsageError → String
  | .missingCommand => "the subcommand is required but not provided\n"
  | .unknownCommand word => "unrecognized subcommand '" ++ word ++ "'\n"
  | .missingPath => "the argument '<PATH>' is required but not provided\n"
  | .unexpectedArgument word => "unexpected argument '" ++ word ++ "'\n"
  | .help => helpText

end UsageError

/-- A word of the command line: an option, or a word that stands for itself. -/
inductive Argument where
  | plain (word : String)
  | option (key : String)
deriving DecidableEq

namespace Argument

/-- The key of an option with a long name: the name itself. A name of one byte
keeps its dashes, which tell it from a letter. -/
def longKey (name : List Char) : String :=
  if (String.ofList name).utf8ByteSize = 1 then String.ofList ('-' :: '-' :: name)
  else String.ofList name

/-- What a word is where options may stand. A dash alone is a plain word. After
one dash stands an option's letter, after two its long name, which an equals
sign ends. -/
def ofWord (word : String) : Argument :=
  match word.toList with
  | '-' :: '-' :: rest => .option (longKey (rest.takeWhile (· != '=')))
  | '-' :: letter :: _ => .option (String.ofList [letter])
  | _ => .plain word

/-- How the option of a key is written: at most one character after one dash, a
longer name after two, a key that has its dashes as it is. -/
def optionText (key : String) : String :=
  match key.toList with
  | [] | [_] => "-" ++ key
  | '-' :: '-' :: _ => key
  | _ => "--" ++ key

/-- The arguments in a list of words. -/
def ofWords : List String → List Argument
  | [] => []
  | "--" :: rest => rest.map .plain
  | word :: rest => ofWord word :: ofWords rest

end Argument

namespace Command

/-- What comes of an option. -/
def onOption : String → UsageError
  | "help" | "h" => .help
  | key => .unexpectedArgument (Argument.optionText key)

/-- A command that takes nothing more. -/
def alone (command : Command) : List Argument → Except UsageError Command
  | [] => .ok command
  | .option key :: _ => .error (onOption key)
  | .plain word :: _ => .error (.unexpectedArgument word)

/-- A command that takes one path. -/
def withPath (command : String → Command) : List Argument → Except UsageError Command
  | [] => .error .missingPath
  | .option key :: _ => .error (onOption key)
  | .plain path :: rest => alone (command path) rest

/-- The command of a name, given the words after the name. -/
def ofName (name : String) (rest : List String) : Except UsageError Command :=
  match name with
  | "file" => withPath .file (Argument.ofWords rest)
  | "repl" => alone .repl (Argument.ofWords rest)
  | "tokens" => withPath .tokens (Argument.ofWords rest)
  | "ast" => withPath .ast (Argument.ofWords rest)
  | _ => .error (.unknownCommand name)

/-- The command a list of words asks for. -/
def ofWords : List String → Except UsageError Command
  | [] | ["--"] => .error .missingCommand
  | "--" :: name :: rest => ofName name rest
  | word :: rest =>
    match Argument.ofWord word with
    | .option key => .error (onOption key)
    | .plain name => ofName name rest

end Command

end Lox
