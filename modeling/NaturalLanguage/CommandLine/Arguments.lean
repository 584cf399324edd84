import NaturalLanguage.Decimal.Read

/-!
# Command line arguments

A command knows some options. An option is written with its long name after two dashes, and if it
takes a value it may have a short name of one letter after one dash. The value follows as the next
argument, or in the same argument: after an equals sign, or right after a short name. A value in an
argument of its own does not begin with a dash, except for the dash alone. After two dashes alone
all arguments are operands. Anything else that begins with a dash is refused, and so is an option
that is given twice.

* `readArguments`: the options and operands of a list of arguments.
* `readCount?`: whole numbers of 64 bits.
-/

namespace NaturalLanguage.CommandLine

/-- An option that a command knows. -/
inductive OptionKind where
  | flag (long : String)
  | valued (long : String) (short : Option Char)

/-- The long name of an option. -/
def OptionKind.long : OptionKind → String
  | flag long => long
  | valued long _ => long

/-- What a list of arguments says. -/
structure Arguments where
  /-- The options that were given, by long name; flags have an empty value. -/
  options : List (String × String)
  operands : List String

namespace Arguments

/-- Whether an option was given. -/
def has (a : Arguments) (long : String) : Bool := a.options.any (·.1 == long)

/-- The value of an option that was given. -/
def value? (a : Arguments) (long : String) : Option String := a.options.lookup long

/-- One more option in front of others, unless it is among them. -/
def addOption? (a : Arguments) (long value : String) : Option Arguments :=
  if a.has long then none else some { a with options := (long, value) :: a.options }

/-- One more operand in front of others. -/
def addOperand (a : Arguments) (text : String) : Arguments :=
  { a with operands := text :: a.operands }

end Arguments

/-- What one argument says. -/
inductive Reading where
  | operand
  /-- An option without a value or with the value in the same argument. -/
  | option (long value : String)
  /-- An option whose value is the next argument. -/
  | awaiting (long : String)
  /-- The two dashes after which all is operand. -/
  | endOfOptions
  | refused

/-- Read the text after two dashes: a name, or a name and a value after an equals sign. -/
def readLong (kinds : List OptionKind) (text : List Char) : Reading :=
  let name := String.ofList (text.takeWhile (· ≠ '='))
  match kinds.find? (·.long == name), text.dropWhile (· ≠ '=') with
  | some (.flag long), [] => .option long ""
  | some (.valued long _), [] => .awaiting long
  | some (.valued long _), _ :: value => .option long (String.ofList value)
  | _, _ => .refused

/-- Whether an option has the short name `c`. -/
def OptionKind.hasShort (c : Char) : OptionKind → Bool
  | flag _ => false
  | valued _ short => short == some c

/-- Read the text after one dash: a short name and, if more follows, its value. -/
def readShort (kinds : List OptionKind) (c : Char) (rest : List Char) : Reading :=
  match kinds.find? (·.hasShort c), rest with
  | none, _ => .refused
  | some kind, [] => .awaiting kind.long
  | some kind, '=' :: value => .option kind.long (String.ofList value)
  | some kind, value => .option kind.long (String.ofList value)

/-- Read one argument before the end of the options. -/
def readArgument (kinds : List OptionKind) (text : String) : Reading :=
  match text.toList with
  | ['-', '-'] => .endOfOptions
  | '-' :: '-' :: rest => readLong kinds rest
  | '-' :: c :: rest => readShort kinds c rest
  | _ => .operand

/-- Whether an argument can be the value of the option before it. -/
def isSeparateValue (text : String) : Bool := text == "-" || text.toList.head? != some '-'

/-- Read arguments, where `awaited` is an option whose value comes first. -/
def readFrom (kinds : List OptionKind) : (awaited : Option String) → List String → Option Arguments
  | some _, [] => none
  | none, [] => some ⟨[], []⟩
  | some long, text :: rest =>
    if isSeparateValue text then (readFrom kinds none rest).bind (·.addOption? long text) else none
  | none, text :: rest =>
    match readArgument kinds text with
    | .operand => (readFrom kinds none rest).map (·.addOperand text)
    | .option long value => (readFrom kinds none rest).bind (·.addOption? long value)
    | .awaiting long => readFrom kinds (some long) rest
    | .endOfOptions => some ⟨[], rest⟩
    | .refused => none

/-- The options and operands of a list of arguments, `none` if they are refused. -/
def readArguments (kinds : List OptionKind) (args : List String) : Option Arguments :=
  readFrom kinds none args

/-- A whole number below `2 ^ 64`: digits, with a plus sign in front or without. -/
def readCount? (text : String) : Option Nat :=
  let digits :=
    match text.toList with
    | '+' :: rest => rest
    | cs => cs
  if digits.isEmpty || !digits.all Char.isDigit then none
  else
    let n := Decimal.digitsValue digits
    if n < UInt64.size then some n else none

/-- The whole number that an option has as its value: `some none` without the option, `none` if the
value is not a whole number. -/
def Arguments.count? (a : Arguments) (long : String) : Option (Option Nat) :=
  match a.value? long with
  | none => some none
  | some text => (readCount? text).map some

end NaturalLanguage.CommandLine
