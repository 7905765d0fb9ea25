import Inkwell.Text.Decimal
import Inkwell.Text.Quoted

/-!
# Command-line options

Arguments are first sorted into words: options, unknown options, plain arguments, and the separator
`--`, behind which everything is plain. Long options may be shortened as long as they stay unique.
Text may be attached to an option: behind an equals sign, or directly behind a short one. It is the
value of an option that takes one; behind a short option that takes none it holds the letters of
further short options. The words are then collected from left to right into `Options`. The first
plain argument is the program file; arguments that nothing has a use for are reported together at
the end.
-/

namespace Inkwell.Console

/-- What to do with a piece of source text. -/
inductive Mode where
  /-- Evaluate it and print its value. -/
  | evaluate
  /-- Print its canonical text. -/
  | canonical
  /-- Print its tokens. -/
  | tokens
  deriving DecidableEq, Repr

/-- The settings of one invocation. -/
structure Options where
  /-- How much of a run is traced. -/
  verbosity : Nat := 0
  /-- What to do with source text. -/
  mode : Mode := .evaluate
  /-- The prompt of the interactive session. -/
  prompt : String := ">> "
  /-- The program file. Without one, or if its name is empty, a session is started. -/
  program : Option String := none
  deriving DecidableEq, Repr

/-- An option. -/
inductive Flag where
  | help | verbose | canonical | tokens | prompt
  deriving DecidableEq, Repr

/-- The spellings of all options. -/
def Flag.spellings : List (String × Flag) :=
  [("-h", .help), ("--help", .help), ("-v", .verbose), ("--parse", .canonical),
    ("--tokens", .tokens), ("--prompt", .prompt)]

/-- An option as messages show it: all its spellings. -/
def Flag.display (flag : Flag) : String :=
  "/".intercalate ((spellings.filter fun entry => entry.2 = flag).map Prod.fst)

/-- What is wrong with the arguments. -/
inductive Misuse where
  /-- The argument is a common beginning of several options. -/
  | ambiguous (argument : String) (candidates : List String)
  /-- The option excludes one that was given before. -/
  | excluded (flag other : Flag)
  /-- The option lacks its value. -/
  | noValue (flag : Flag)
  /-- The option has a value that it does not take. -/
  | extraValue (flag : Flag) (value : String)
  /-- Nothing has a use for these arguments. -/
  | unrecognized (arguments : List String)
  deriving DecidableEq, Repr

/-- The text of a misuse. -/
def Misuse.message : Misuse → String
  | ambiguous argument candidates =>
    "ambiguous option: " ++ argument ++ " could match " ++ ", ".intercalate candidates
  | excluded flag other =>
    "argument " ++ flag.display ++ ": not allowed with argument " ++ other.display
  | noValue flag => "argument " ++ flag.display ++ ": expected one argument"
  | extraValue flag value =>
    "argument " ++ flag.display ++ ": ignored explicit argument " ++ Text.Quoted.encode value
  | unrecognized arguments => "unrecognized arguments: " ++ " ".intercalate arguments

/-- The role of an argument. -/
inductive Word where
  /-- Neither an option nor the separator. -/
  | plain (text : String)
  /-- An option, by its full spelling, and the text attached to it. -/
  | option (spelling : String) (flag : Flag) (attached : Option String)
  /-- Looks like an option, but is none. -/
  | unknown (text : String)
  /-- The separator. -/
  | separator
  deriving DecidableEq, Repr

/-- Whether a text behind a minus sign reads as a number: digits, or digits around a point of which
those before it may be missing. A line feed at the very end does not matter. -/
def isUnsignedNumber (text : List Char) : Bool :=
  let text := if text.getLast? = some '\n' then text.dropLast else text
  let isDigit := fun c => (Text.Decimal.digit? c).isSome
  match text.dropWhile isDigit with
  | [] => !text.isEmpty
  | '.' :: rest => !rest.isEmpty && rest.all isDigit
  | _ => false

/-- The options that an argument which is no full spelling may stand for. A long option may be cut
short before an equals sign; a short one may be followed by text. -/
def candidates (argument : String) : List Word :=
  match argument.toList with
  | '-' :: '-' :: _ =>
    let start := argument.toList.takeWhile (· ≠ '=')
    let attached :=
      match argument.toList.dropWhile (· ≠ '=') with
      | _ :: value => some (String.ofList value)
      | [] => none
    Flag.spellings.filterMap fun (spelling, flag) =>
      if start.isPrefixOf spelling.toList then some (.option spelling flag attached) else none
  | dash :: letter :: rest =>
    Flag.spellings.filterMap fun (spelling, flag) =>
      if spelling.toList = [dash, letter] then
        some (.option spelling flag (some (String.ofList rest)))
      else none
  | _ => []

/-- The spelling of an option, if the word is one. -/
def Word.spelling? : Word → Option String
  | .option spelling _ _ => some spelling
  | _ => none

/-- The role of an argument before the separator. -/
def Word.ofArgument (argument : String) : Except Misuse Word :=
  match argument.toList with
  | '-' :: tail@(_ :: _) =>
    match Flag.spellings.lookup argument with
    | some flag => .ok (.option argument flag none)
    | none =>
      let start := String.ofList (argument.toList.takeWhile (· ≠ '='))
      match argument.toList.dropWhile (· ≠ '='), Flag.spellings.lookup start with
      | _ :: value, some flag => .ok (.option start flag (some (String.ofList value)))
      | _, _ =>
        match candidates argument with
        | [word] => .ok word
        | [] =>
          if isUnsignedNumber tail || tail.contains ' ' then .ok (.plain argument)
          else .ok (.unknown argument)
        | words => .error (.ambiguous argument (words.filterMap Word.spelling?))
  | _ => .ok (.plain argument)

/-- The roles of all arguments. -/
def Word.ofArguments : List String → Except Misuse (List Word)
  | [] => .ok []
  | argument :: rest =>
    if argument = "--" then .ok (.separator :: rest.map .plain)
    else do
      let word ← Word.ofArgument argument
      return word :: (← Word.ofArguments rest)

/-- The options that share an argument: a short one that takes no value, and those whose letters are
attached to it. -/
def bundled (flag : Flag) : List Char → Except Misuse (List Flag)
  | [] => .error (.extraValue flag "")
  | letter :: rest =>
    match Flag.spellings.lookup (String.ofList ['-', letter]), rest with
    | none, rest => .error (.extraValue flag (String.ofList (letter :: rest)))
    | some next, [] => .ok [flag, next]
    | some next, second :: rest => (bundled next (second :: rest)).map (flag :: ·)

/-- The prompt that attached text sets. The separator is dropped where a value is expected, and a
prompt without a value is shown as an empty pair of brackets. -/
def promptOf (attached : String) : String := if attached = "--" then "[]" else attached

/-- Why there are no options to go on with. -/
inductive Halt where
  /-- The help text was asked for. -/
  | help
  /-- The arguments are wrong. -/
  | misuse (cause : Misuse)
  deriving DecidableEq, Repr

/-- The effect of an option that takes no value. -/
def Options.apply (options : Options) : Flag → Except Halt Options
  | .help => .error .help
  | .verbose => .ok { options with verbosity := options.verbosity + 1 }
  | .canonical =>
    if options.mode = .tokens then .error (.misuse (.excluded .canonical .tokens))
    else .ok { options with mode := .canonical }
  | .tokens =>
    if options.mode = .canonical then .error (.misuse (.excluded .tokens .canonical))
    else .ok { options with mode := .tokens }
  | .prompt => .error (.misuse (.noValue .prompt))

/-- The options collected so far. -/
structure Collected where
  /-- The settings. -/
  options : Options := {}
  /-- Whether the place of the program file is taken, possibly by nothing. -/
  placed : Bool := false
  /-- The arguments that nothing had a use for. -/
  leftover : Array String := #[]

/-- Takes the words from left to right. A separator next to the program file belongs to it. -/
def Collected.take (found : Collected) : List Word → Except Halt Collected
  | [] => .ok found
  | .plain text :: rest =>
    if found.placed then take { found with leftover := found.leftover.push text } rest
    else
      let found := { found with options.program := some text, placed := true }
      match rest with
      | .separator :: rest => take found rest
      | rest => take found rest
  | .separator :: rest =>
    if found.placed then take { found with leftover := found.leftover.push "--" } rest
    else
      match rest with
      | .plain text :: rest =>
        take { found with options.program := some text, placed := true } rest
      | rest => take { found with placed := true } rest
  | .unknown text :: rest => take { found with leftover := found.leftover.push text } rest
  | .option _ .prompt (some attached) :: rest =>
    take { found with options.prompt := promptOf attached } rest
  | .option _ .prompt none :: rest =>
    match rest with
    | .plain text :: rest => take { found with options.prompt := text } rest
    | _ => .error (.misuse (.noValue .prompt))
  | .option _ flag none :: rest => do
    take { found with options := ← found.options.apply flag } rest
  | .option spelling flag (some attached) :: rest =>
    if spelling.length = 2 then
      match bundled flag attached.toList with
      | .error cause => .error (.misuse cause)
      | .ok flags => do
        take { found with options := ← flags.foldlM Options.apply found.options } rest
    else .error (.misuse (.extraValue flag attached))

/-- The options that arguments stand for. -/
def Options.ofArguments (arguments : List String) : Except Halt Options :=
  match Word.ofArguments arguments with
  | .error cause => .error (.misuse cause)
  | .ok words => do
    let found ← Collected.take {} words
    if found.leftover.isEmpty then return found.options
    else throw (.misuse (.unrecognized found.leftover.toList))

/-- The shape of an invocation. -/
def usage : String :=
  "usage: quill [-h] [-v] [--parse | --tokens] [--prompt PROMPT] [program]\n"

/-- The help text. -/
def help : String :=
  usage ++
  "\nQuill language interpreter\n\n" ++
  "positional arguments:\n" ++
  "  program          Quill program file to execute\n\n" ++
  "options:\n" ++
  "  -h, --help       show this help message and exit\n" ++
  "  -v               increase debug verbosity (can be repeated)\n" ++
  "  --parse          print the parsed program instead of running it\n" ++
  "  --tokens         print the token stream instead of running it\n" ++
  "  --prompt PROMPT  prompt for the interactive session\n"

end Inkwell.Console
