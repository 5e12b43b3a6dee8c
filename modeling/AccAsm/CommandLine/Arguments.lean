import AccAsm.Command.Options
import AccAsm.Text.Refusal

/-! # Arguments of the command

Flags and files may come in any order. A flag with a value takes it from the same argument or from
the next one; a switch takes one only after an equals sign. -/

namespace AccAsm
open Text (byte lit)

inductive Flag where
  | debug
  | dumpTree
  | dumpCells
  | fill
  | format
  | help
  | table
  | out
  | strict
  | verbose
deriving DecidableEq, Repr

namespace Flag

/-- In byte order of their names. -/
def all : List Flag := [debug, dumpTree, dumpCells, fill, format, help, table, out, strict, verbose]

def name : Flag → Text
  | debug => lit "debug"
  | dumpTree => lit "dump-ast"
  | dumpCells => lit "dump-units"
  | fill => lit "fill"
  | format => lit "format"
  | help => lit "help"
  | table => lit "isa"
  | out => lit "out"
  | strict => lit "strict"
  | verbose => lit "verbose"

/-- The letter that stands for a flag. -/
def letter? : Flag → Option UInt8
  | format => some (byte 'f')
  | help => some (byte 'h')
  | out => some (byte 'o')
  | verbose => some (byte 'v')
  | _ => none

/-- A switch needs no value. -/
def isSwitch : Flag → Bool
  | fill | format | table | out => false
  | _ => true

def ofName? (name : Text) : Option Flag := all.find? (·.name == name)

def ofLetter? (letter : UInt8) : Option Flag := all.find? (·.letter? == some letter)

/-- All spellings of a flag. -/
def spellings (f : Flag) : Text :=
  match f.letter? with
  | some letter => byte '-' :: letter :: lit ", --" ++ f.name
  | none => lit "--" ++ f.name

end Flag

/-- What arguments ask for. -/
structure CommandLine where
  options : Options := {}
  help : Bool := false
  /-- The files that were named, last one first. -/
  files : List Text := []
deriving DecidableEq, Repr

/-- Why arguments cannot be understood. -/
inductive UsageError where
  | badFlag (argument : Text)
  | unknownFlag (name : Text)
  /-- The first letter of `letters` stands for no flag. -/
  | unknownLetter (letter : UInt8) (letters : Text)
  | missingValue (argument : Text)
  | missingLetterValue (letter : UInt8) (letters : Text)
  | invalidValue (flag : Flag) (value reason : Text)
deriving DecidableEq, Repr

def UsageError.message : UsageError → Text
  | badFlag argument => lit "bad flag syntax: " ++ argument
  | unknownFlag name => lit "unknown flag: --" ++ name
  | unknownLetter letter letters =>
    lit "unknown shorthand flag: " ++ Quoted.quoteChar (Char.ofNat letter.toNat) ++ lit " in -" ++
      letters
  | missingValue argument => lit "flag needs an argument: " ++ argument
  | missingLetterValue letter letters =>
    lit "flag needs an argument: " ++ Quoted.quoteChar (Char.ofNat letter.toNat) ++ lit " in -" ++
      letters
  | invalidValue flag value reason =>
    lit "invalid argument " ++ Quoted.quote value ++ lit " for " ++ Quoted.quote flag.spellings ++
      lit " flag: " ++ reason

namespace CommandLine

/-- The words for a switch that is on, and for one that is off. -/
def truthValue? (t : Text) : Option Bool :=
  if [lit "1", lit "t", lit "T", lit "TRUE", lit "true", lit "True"].contains t then some true
  else if [lit "0", lit "f", lit "F", lit "FALSE", lit "false", lit "False"].contains t then some false
  else none

/-- Turns a switch. -/
def turn (l : CommandLine) (f : Flag) (on : Bool) : CommandLine :=
  match f with
  | .strict => { l with options.strict := on }
  | .debug => { l with options.debug := on }
  | .dumpTree => { l with options.dumpTree := on }
  | .dumpCells => { l with options.dumpCells := on }
  | .verbose => { l with options.verbose := on }
  | .help => { l with help := on }
  | .fill | .format | .table | .out => l

/-- Gives a flag a value. -/
def set (l : CommandLine) (f : Flag) (value : Text) : Except UsageError CommandLine :=
  match f with
  | .out => .ok { l with options.out := value }
  | .format => .ok { l with options.format := value }
  | .table => .ok { l with options.table := value }
  | .fill =>
    match Numeral.readLiteral value with
    | .ok n => .ok { l with options.fill := Int64.ofInt n }
    | .error flaw => .error (.invalidValue f value (Numeral.refusal value flaw))
  | f =>
    match truthValue? value with
    | some on => .ok (l.turn f on)
    | none =>
      .error (.invalidValue f value (Text.refusal (lit "strconv.ParseBool") value .malformed))

/-- The effect of one argument, and whether it took the next one as a value. -/
abbrev Step := Except UsageError (CommandLine × Bool)

/-- An argument `--name` or `--name=value`. -/
def long (l : CommandLine) (argument : Text) (next : Option Text) : Step :=
  let body := argument.drop 2
  if body.head? == some (byte '-') || body.head? == some (byte '=') then .error (.badFlag argument)
  else
    let (name, value) := Text.cutAt (byte '=') body
    match Flag.ofName? name with
    | none => .error (.unknownFlag name)
    | some f =>
      match value, next with
      | some v, _ => (l.set f v).map (·, false)
      | none, next =>
        if f.isSwitch then .ok (l.turn f true, false)
        else match next with
          | some v => (l.set f v).map (·, true)
          | none => .error (.missingValue argument)

/-- The letters after a dash. Only the last one may take a value, and what starts with `test.` is
passed over. -/
def short (next : Option Text) (l : CommandLine) : Text → Step
  | [] => .ok (l, false)
  | letter :: rest =>
    if (lit "test.").isPrefixOf (letter :: rest) then .ok (l, false)
    else match Flag.ofLetter? letter with
      | none => .error (.unknownLetter letter (letter :: rest))
      | some f =>
        if rest.head? == some (byte '=') && 1 < rest.length then (l.set f rest.tail).map (·, false)
        else if f.isSwitch then short next (l.turn f true) rest
        else if !rest.isEmpty then (l.set f rest).map (·, false)
        else match next with
          | some v => (l.set f v).map (·, true)
          | none => .error (.missingLetterValue letter (letter :: rest))

/-- Reads further arguments. -/
def readOnto (l : CommandLine) : List Text → Except UsageError CommandLine
  | [] => .ok l
  | argument :: rest =>
    if argument.head? != some (byte '-') || argument == lit "-" then
      readOnto { l with files := argument :: l.files } rest
    else if argument == lit "--" then .ok { l with files := rest.reverse ++ l.files }
    else
      let step := if (lit "--").isPrefixOf argument then l.long argument rest.head?
        else short rest.head? l argument.tail
      match step, rest with
      | .error e, _ => .error e
      | .ok (l, true), _ :: rest => readOnto l rest
      | .ok (l, _), rest => readOnto l rest

def ofArguments (arguments : List Text) : Except UsageError CommandLine := readOnto {} arguments

/-- The files in the order in which they were named. -/
def inputs (l : CommandLine) : List Text := l.files.reverse

end CommandLine
end AccAsm
