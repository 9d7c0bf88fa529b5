import TermText.Text.Digit
import TermText.Text.Quoted

/-!
# Command line options

The options of the command line. A long option may be cut short as long as it stays unique, a value
may follow an equals sign or a short option directly, two hyphens end the options, and options and
the dump may come in any order. Asking for help wins over whatever follows it.
-/

namespace TermText.Cli

/-- The options. -/
inductive Flag where
  | help
  | output
  | includeInternal
  | trace
  | summary
  deriving DecidableEq, Repr

namespace Flag

/-- The spellings of the options in the order in which they are offered. -/
def spellings : List (Text × Flag) :=
  [("-h", help), ("--help", help), ("--output", output), ("-o", output),
    ("--include-internal", includeInternal), ("--trace-jsonl", trace), ("--summary", summary)]

/-- Whether an option takes a value. -/
def takesValue : Flag → Bool
  | .output | .trace => true
  | .help | .includeInternal | .summary => false

/-- An option as it is named in a message: all its spellings. -/
def displayName (flag : Flag) : Text :=
  Text.join "/" ((spellings.filter fun entry => entry.2 = flag).map Prod.fst)

/-- The option with a given spelling. -/
def ofSpelling? (t : Text) : Option Flag :=
  (spellings.find? fun entry => entry.1 = t).map Prod.snd

end Flag

/-- What a command line asks for. -/
structure Options where
  dump : Text
  output : Option Text
  includeInternal : Bool
  trace : Option Text
  summary : Bool
  deriving DecidableEq

/-- Why a command line was not understood. -/
inductive UsageError where
  | ambiguous (given : Text) (matching : List Text)
  | needlessValue (flag : Flag) (given : Text)
  | missingValue (flag : Flag)
  | missingDump
  | unrecognized (words : List Text)
  deriving DecidableEq, Repr

/-- The wording of a failure to understand a command line. -/
def UsageError.message : UsageError → Text
  | .ambiguous given matching =>
    "ambiguous option: " ++ given ++ " could match " ++ Text.join ", " matching
  | .needlessValue flag given =>
    "argument " ++ flag.displayName ++ ": ignored explicit argument " ++ given.quoted
  | .missingValue flag => "argument " ++ flag.displayName ++ ": expected one argument"
  | .missingDump => "the following arguments are required: dump"
  | .unrecognized words => "unrecognized arguments: " ++ Text.join " " words

/-- What a word of a command line is taken for: the end of the options, an option (if there is one
of that spelling) with a value attached to it or none, or anything else. -/
inductive Word where
  | endOfOptions
  | plain (t : Text)
  | option (which : Flag) (short : Bool) (attached : Option Text)
  | unknown (t : Text)
  deriving DecidableEq

namespace Word

/-- The hyphen. -/
def hyphen : CodePoint := CodePoint.ofChar '-'

/-- The equals sign. -/
def equalsSign : CodePoint := CodePoint.ofChar '='

/-- A word cut at its first equals sign. -/
def cut? (t : Text) : Option (Text × Text) :=
  if t.contains equalsSign then
    some (t.takeWhile (· ≠ equalsSign), (t.dropWhile (· ≠ equalsSign)).drop 1)
  else none

/-- A decimal digit of any script. -/
def isNumeralDigit (c : CodePoint) : Bool :=
  c.decimalValue?.isSome

/-- A text that looks like a negative number: a hyphen and digits, of which the last ones may stand
after a point; a line end may follow. -/
def isNegativeNumber (t : Text) : Bool :=
  match t with
  | [] => false
  | c :: rest =>
    let body := if rest.getLast? = some Text.newline then rest.dropLast else rest
    let whole := body.takeWhile isNumeralDigit
    match body.dropWhile isNumeralDigit with
    | [] => c = hyphen && !whole.isEmpty
    | point :: fraction =>
      c = hyphen && point = CodePoint.ofChar '.' && !fraction.isEmpty && fraction.all isNumeralDigit

/-- The options that a word may stand for, each with its spelling and what is attached to it: a long
option cut short, or a short option with its value. -/
def candidates (t : Text) : List (Text × Flag × Option Text) :=
  if (Text.dropLeading? "--" t).isSome then
    let (lead, attached) :=
      match cut? t with
      | some (lead, value) => (lead, some value)
      | none => (t, none)
    Flag.spellings.filterMap fun (spelling, flag) =>
      (Text.dropLeading? lead spelling).map fun _ => (spelling, flag, attached)
  else
    Flag.spellings.filterMap fun (spelling, flag) =>
      if spelling = t.take 2 then some (spelling, flag, some (t.drop 2)) else none

/-- Whether a spelling is a short one. -/
def isShort (spelling : Text) : Bool :=
  spelling.length = 2

/-- What a word that no option spells out is taken for. -/
def guess (t : Text) : Except UsageError Word :=
  match candidates t with
  | [(spelling, flag, attached)] => .ok (.option flag (isShort spelling) attached)
  | [] =>
    if isNegativeNumber t || t.contains (CodePoint.ofChar ' ') then .ok (.plain t)
    else .ok (.unknown t)
  | several => .error (.ambiguous t (several.map Prod.fst))

/-- What a word before the end of the options is taken for. -/
def classify (t : Text) : Except UsageError Word :=
  if t.head? ≠ some hyphen then .ok (.plain t)
  else
    match Flag.ofSpelling? t with
    | some flag => .ok (.option flag (isShort t) none)
    | none =>
      if t.length = 1 then .ok (.plain t)
      else
        match cut? t with
        | none => guess t
        | some (spelling, value) =>
          match Flag.ofSpelling? spelling with
          | some flag => .ok (.option flag (isShort spelling) (some value))
          | none => guess t

/-- What the words of a command line are taken for. -/
def classifyAll : List Text → Except UsageError (List Word)
  | [] => .ok []
  | t :: rest =>
    if t = ("--" : Text) then .ok (.endOfOptions :: rest.map .plain)
    else do
      let word ← classify t
      let words ← classifyAll rest
      .ok (word :: words)

end Word

/-- What was understood so far: the options, the dump if it was given, and words that nothing was
made of. -/
structure Understood where
  dump : Option Text
  output : Option Text
  includeInternal : Bool
  trace : Option Text
  summary : Bool
  unrecognized : List Text

namespace Understood

/-- Nothing understood yet. -/
def empty : Understood :=
  ⟨none, none, false, none, false, []⟩

/-- An option that takes no value was given. -/
def give (u : Understood) : Flag → Understood
  | .includeInternal => { u with includeInternal := true }
  | .summary => { u with summary := true }
  | _ => u

/-- An option was given with its value. Two hyphens are no value: they take back an earlier one. -/
def giveValue (u : Understood) (flag : Flag) (value : Text) : Understood :=
  let given := if value = ("--" : Text) then none else some value
  match flag with
  | .output => { u with output := given }
  | .trace => { u with trace := given }
  | _ => u

/-- Nothing is made of a word. -/
def pass (u : Understood) (word : Text) : Understood :=
  { u with unrecognized := u.unrecognized ++ [word] }

/-- A word that is no option: the dump, if it was not given yet. -/
def takePlain (u : Understood) (word : Text) : Understood :=
  match u.dump with
  | none => { u with dump := some word }
  | some _ => u.pass word

/-- The end of the options is a word like any other if the dump was given, unless it follows the
dump directly. -/
def passEnd (u : Understood) (afterDump : Bool) : Understood :=
  if afterDump then u else u.pass "--"

/-- The options of a whole command line. -/
def finish (u : Understood) : Except UsageError Options :=
  match u.dump with
  | none => .error .missingDump
  | some dump =>
    if u.unrecognized.isEmpty then
      .ok ⟨dump, u.output, u.includeInternal, u.trace, u.summary⟩
    else .error (.unrecognized u.unrecognized)

end Understood

/-- What a command line asks for: help, or a run. -/
inductive Request where
  | help
  | run (options : Options)
  deriving DecidableEq

/-- The letters after the short option for help, which must be short options again. One that takes a
value takes the letters after it; the last of all may need the next word as its value. -/
def readCluster (next : Option Word) : Text → Except UsageError Request
  | [] => .ok .help
  | c :: rest =>
    match Flag.ofSpelling? [Word.hyphen, c] with
    | some flag =>
      if !flag.takesValue then readCluster next rest
      else if !rest.isEmpty then .ok .help
      else
        match next with
        | some (.plain _) => .ok .help
        | _ => .error (.missingValue flag)
    | none => .error (.needlessValue .help (c :: rest))

/-- Reads words one after another. `afterDump` if the word before was taken for the dump. -/
def readWords (u : Understood) (afterDump : Bool) : List Word → Except UsageError Request
  | [] => do .ok (.run (← u.finish))
  | .plain t :: rest => readWords (u.takePlain t) u.dump.isNone rest
  | .unknown t :: rest => readWords (u.pass t) false rest
  | .endOfOptions :: rest =>
    match u.dump, rest with
    | none, .plain t :: more => readWords (u.takePlain t) true more
    | none, more => readWords (u.pass "--") false more
    | some _, more => readWords (u.passEnd afterDump) false more
  | .option flag short (some attached) :: rest =>
    if flag.takesValue then readWords (u.giveValue flag attached) false rest
    else if flag = .help && short && !attached.isEmpty then readCluster rest.head? attached
    else .error (.needlessValue flag attached)
  | .option flag _ none :: rest =>
    if flag.takesValue then
      match rest with
      | .plain value :: more => readWords (u.giveValue flag value) false more
      | _ => .error (.missingValue flag)
    else if flag = .help then .ok .help
    else readWords (u.give flag) false rest

/-- Reads a command line. -/
def read (arguments : List Text) : Except UsageError Request := do
  let words ← Word.classifyAll arguments
  readWords .empty false words

/-- How the program is used. -/
def usage : Text :=
  "usage: termsexp [-h] [--output OUTPUT] [--include-internal]\n" ++
    "                [--trace-jsonl TRACE_JSONL] [--summary]\n" ++
    "                dump\n"

/-- The help on all options. -/
def help : Text :=
  usage ++
    ("\nEncode a compiled module dump as canonical S-expressions.\n" : Text) ++
    "\npositional arguments:\n" ++
    "  dump                  Path to the module dump (JSON), or - for stdin\n" ++
    "\noptions:\n" ++
    "  -h, --help            show this help message and exit\n" ++
    "  --output OUTPUT, -o OUTPUT\n" ++
    "                        Write the encoding to a file instead of stdout\n" ++
    "  --include-internal    Keep compiler-generated declarations instead of\n" ++
    "                        filtering them out\n" ++
    "  --trace-jsonl TRACE_JSONL\n" ++
    "                        Write export events to a JSONL file\n" ++
    "  --summary             Print a JSON summary (counts, fingerprint, sharing)\n" ++
    "                        instead of the encoding\n"

end TermText.Cli
