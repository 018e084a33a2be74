import EchoLang.Decimal.Reader

namespace EchoLang.CommandLine

-- A value follows its option as the next argument or behind a sign: `--target x`,
-- `--target=x`, `-t x`, `-tx`, `-t=x`. Options and other arguments come in any order, and two
-- dashes end the options.
structure OptionSpec where
  long : String
  letter : Option Char
  -- whether a text can be the value of the option; `none` if it takes no value
  accepts : Option (String → Bool)

structure CommandSpec where
  options : List OptionSpec
  -- how many arguments that are no options the command takes
  operands : Nat
  hasVersion : Bool

structure Arguments where
  operands : List String
  values : List (String × String)

namespace Arguments

def empty : Arguments := ⟨[], []⟩

def has (a : Arguments) (long : String) : Bool :=
  a.values.any (·.1 = long)

def value? (a : Arguments) (long : String) : Option String :=
  (a.values.find? (·.1 = long)).map (·.2)

def setValue (a : Arguments) (long value : String) : Arguments :=
  { a with values := a.values ++ [(long, value)] }

end Arguments

-- What the arguments ask for. The first argument that decides it counts.
inductive Request where
  | invalid
  | help
  | version
  | perform (a : Arguments)

-- Where an argument leaves the reader: with more arguments to read, or done.
inductive Progress where
  | stop (request : Request)
  | more (a : Arguments) (needsValue : Option OptionSpec)

-- A flag is kept with an empty value. No option may be given twice.
def giveValue (a : Arguments) (spec : OptionSpec) (value : String) : Progress :=
  match spec.accepts with
  | some accepts =>
    if accepts value then .more (a.setValue spec.long value) none else .stop .invalid
  | none => .stop .invalid

def giveOption (a : Arguments) (spec : OptionSpec) (attached : Option String) : Progress :=
  if a.has spec.long then
    .stop .invalid
  else
    match spec.accepts, attached with
    | none, none => .more (a.setValue spec.long "") none
    | some _, none => .more a (some spec)
    | _, some value => giveValue a spec value

-- An option given by its name. The text has lost its dashes.
def readLong (spec : CommandSpec) (a : Arguments) (text : List Char) : Progress :=
  let name := String.ofList (text.takeWhile (· ≠ '='))
  let attached :=
    match text.dropWhile (· ≠ '=') with
    | [] => none
    | _ :: value => some (String.ofList value)
  match spec.options.find? (·.long = name) with
  | some option => giveOption a option attached
  | none =>
    if attached ≠ none then .stop .invalid
    else if name = "help" then .stop .help
    else if name = "version" ∧ spec.hasVersion then .stop .version
    else .stop .invalid

-- An option given by its letter. The text behind it is its value.
def readLetter (spec : CommandSpec) (a : Arguments) (letter : Char) (text : List Char) : Progress :=
  let attached :=
    match text with
    | [] => none
    | '=' :: value => some (String.ofList value)
    | value => some (String.ofList value)
  match spec.options.find? (·.letter = some letter) with
  | some option => giveOption a option attached
  | none =>
    if letter = 'h' then .stop .help
    else if letter = 'V' ∧ spec.hasVersion then .stop .version
    else .stop .invalid

def readOperand (spec : CommandSpec) (a : Arguments) (text : String) : Progress :=
  if a.operands.length < spec.operands then
    .more { a with operands := a.operands ++ [text] } none
  else
    .stop .invalid

def readArgument (spec : CommandSpec) (a : Arguments) (text : String) : Progress :=
  match text.toList with
  | '-' :: '-' :: name => readLong spec a name
  | '-' :: letter :: rest => readLetter spec a letter rest
  | _ => readOperand spec a text

-- An option that waits for its value takes no text that looks like an option.
def isOptionLike (text : String) : Bool :=
  match text.toList with
  | '-' :: _ :: _ => true
  | _ => false

def finish (spec : CommandSpec) (a : Arguments) : Request :=
  if a.operands.length = spec.operands then .perform a else .invalid

-- One argument. An option may wait for it as its value, and the options may
-- have ended before it.
def advance (spec : CommandSpec) (a : Arguments) (waiting : Option OptionSpec) (ended : Bool)
    (text : String) : Progress :=
  match waiting with
  | some option => if isOptionLike text then .stop .invalid else giveValue a option text
  | none => if ended then readOperand spec a text else readArgument spec a text

def readArguments (spec : CommandSpec) (a : Arguments) (waiting : Option OptionSpec)
    (ended : Bool) : List String → Request
  | [] => if waiting.isSome then .invalid else finish spec a
  | text :: rest =>
    if text = "--" ∧ waiting.isNone ∧ ¬ended then
      readArguments spec a none true rest
    else
      match advance spec a waiting ended text with
      | .stop request => request
      | .more a waiting => readArguments spec a waiting ended rest

def CommandSpec.read (spec : CommandSpec) (args : List String) : Request :=
  readArguments spec .empty none false args

-- A natural number of 64 bits in decimal digits, with or without a plus sign.
def word64? (text : String) : Option Nat :=
  let ds : List Char :=
    match text.toList with
    | '+' :: rest => rest
    | cs => cs
  if ds ≠ [] ∧ ds.all Char.isDigit ∧ Decimal.natOfDigits ds ≤ 0xFFFFFFFFFFFFFFFF then
    some (Decimal.natOfDigits ds)
  else
    none

end EchoLang.CommandLine
