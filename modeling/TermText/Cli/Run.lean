import TermText.Cli.Options
import TermText.Dump.Load
import TermText.Export.Exporter
import TermText.Export.Journal
import TermText.Files.Host
import TermText.Fingerprint
import TermText.Sharing

/-!
# Running the program

Reads a dump, exports its module and writes the encoding, a trace of the export and a summary as the
options ask. Nothing is opened before the dump is loaded, and a run that fails prints nothing but a
message. A trace is closed in the end, whatever failed before.
-/

namespace TermText.Cli

/-- Why a run failed. -/
inductive RunError where
  | missing (path : Text)
  | file (error : FileError)
  | decode (error : Utf8.DecodeError)
  | parse (error : Json.ParseError)
  | dump (error : Dump.Error)
  | encode (error : EncodeError)
  | fingerprint (error : Utf8.EncodeError)
  | sharing (error : SharingError)

/-- The wording of a failure. -/
def RunError.message : RunError → Text
  | .missing path => path
  | .file error => error.message
  | .decode error => error.message
  | .parse error => error.message
  | .dump error => error.message
  | .encode error => error.message
  | .fingerprint error => error.message
  | .sharing error => error.message

/-- The module of a document. -/
def moduleOfText (t : Text) : Except RunError Module := do
  let document ← (Json.parse t).mapError .parse
  (Dump.load document).mapError .dump

/-- The module of the contents of a file. -/
def moduleOfOctets (octets : List UInt8) : Except RunError Module := do
  let t ← (Utf8.decode octets).mapError .decode
  moduleOfText t.unifyNewlines

section

variable {m : Type → Type} [Monad m]

/-- The module of the file at a path. -/
def moduleAt (host : Host m) (path : Text) : ExceptT RunError m Module := do
  let normal := (Path.ofText path).toText
  let present ← ExceptT.mk ((·.mapError .file) <$> host.present normal)
  if present then do
    let octets ← ExceptT.mk ((·.mapError .file) <$> host.read normal)
    ExceptT.mk (pure (moduleOfOctets octets))
  else throw (.missing path)

/-- The module of a dump: of the standard input if the path is a hyphen, of a file otherwise. -/
def readDump (host : Host m) (path : Text) : ExceptT RunError m Module :=
  if path = ("-" : Text) then do
    let t ← ExceptT.mk ((·.mapError .decode) <$> host.input)
    ExceptT.mk (pure (moduleOfText t))
  else moduleAt host path

/-- Makes a directory, and before it those above it that are missing. A directory that is there
already will do. -/
def makeDirectories (host : Host m) (p : Path) : m (Except FileError Unit) := do
  let settle (e : FileError) : m (Except FileError Unit) := do
    if e.condition = .nullByte then return .error e
    else if ← host.isDirectory p.toText then return .ok ()
    else return .error e
  match ← host.makeDirectory p.toText with
  | .ok _ => return .ok ()
  | .error e =>
    if e.condition = .notFound then
      if p.parts.isEmpty then return .error e
      else
        match ← makeDirectories host p.parent with
        | .error e => return .error e
        | .ok _ =>
          match ← host.makeDirectory p.toText with
          | .ok _ => return .ok ()
          | .error e => if e.condition = .notFound then return .error e else settle e
    else settle e
termination_by p.parts.length
decreasing_by
  simp only [Path.parent, List.length_dropLast]
  have : p.parts ≠ [] := by simpa using ‹¬p.parts.isEmpty = true›
  have := List.length_pos_iff.2 this
  omega

/-- The octets of a text. -/
def octetsOf (t : Text) : List UInt8 :=
  t.flatMap Utf8.encodeCodePoint

/-- Writes octets to the file at a path, in a directory that is made if need be. -/
def writeOutput (host : Host m) (path : Text) (octets : List UInt8) : ExceptT RunError m Unit := do
  let p := Path.ofText path
  ExceptT.mk ((·.mapError .file) <$> makeDirectories host p.parent)
  ExceptT.mk ((·.mapError .file) <$> host.fill p.toText octets)

/-- The declarations of a module that are to be summarised: all of them if the options include internal
ones, those with a visible name if not. -/
def keptDeclarations (options : Options) (exporter : Exporter) (m : Module) : List Declaration :=
  m.declarations.filter fun d => options.includeInternal || d.name.isVisible exporter.internal

/-- The summary of an export. -/
def summary (options : Options) (exporter : Exporter) (m : Module) (value : Value) :
    Except RunError Json := do
  let sharing ← (SharingMetrics.ofDeclarations (keptDeclarations options exporter m)).mapError .sharing
  let fingerprint ← (Fingerprint.ofValue value).mapError .fingerprint
  let own : Json.Fields :=
    [("module", .text m.name.toText), ("fingerprint", .text fingerprint),
      ("sharing", .object
        [("distinct", .int sharing.distinct), ("shared", .int sharing.shared),
          ("revisits", .int sharing.revisits)])]
  .ok (.object (own ++ exporter.stats))

/-- A path that was given and is not empty. -/
def givenPath (path : Option Text) : Option Text :=
  path.filter fun t => !t.isEmpty

/-- The hooks of a run: a tracer if a trace is asked for. -/
def hooksOf (options : Options) : List Hook :=
  if (givenPath options.trace).isSome then [.tracer 0] else []

/-- The exporter after the export of a module as the options ask, what its hooks wrote, and the
encoding. -/
def exportOf (options : Options) (m : Module) : Exporter × Journal × Except EncodeError Value :=
  (Exporter.new Name.isInternal options.includeInternal).exportWith (hooksOf options) m .empty

/-- The octets of the trace of an export. -/
def traceOctets (options : Options) (m : Module) : List UInt8 :=
  octetsOf (exportOf options m).2.1.text

/-- Writes the encoding of a module and its summary as the options ask; the result is what is
printed. -/
def report (host : Host m) (options : Options) (module : Module) : ExceptT RunError m Text := do
  let (exporter, _, result) := exportOf options module
  let value ← ExceptT.mk (pure (result.mapError .encode))
  let line := value.render ++ [Text.newline]
  if let some path := givenPath options.output then
    writeOutput host path (octetsOf line)
  if options.summary then do
    let document ← ExceptT.mk (pure (summary options exporter module value))
    return document.indented 0 ++ [Text.newline]
  else if (givenPath options.output).isNone then return line
  else return []

/-- What a run leaves behind: its exit code and what it printed. A trace that cannot be closed ends the
run without an exit code. -/
structure Outcome where
  code : Except FileError Nat
  output : Text
  errors : Text

/-- The outcome of a run whose result is what is printed. -/
def Outcome.ofResult : Except RunError Text → Outcome
  | .ok output => ⟨.ok 0, output, []⟩
  | .error e => ⟨.ok 1, [], "termsexp: " ++ e.message ++ [Text.newline]⟩

/-- Writes the trace of a module to a path, and what else the options ask for. The trace is closed
whatever became of this. -/
def reportTraced (host : Host m) (options : Options) (module : Module) (path : Text) :
    m Outcome := do
  match ← host.openFile path with
  | .error e => return .ofResult (.error (.file e))
  | .ok _ =>
    let octets := traceOctets options module
    let result ← (do
      ExceptT.mk ((·.mapError .file) <$> host.fill path octets)
      report host options module : ExceptT RunError m Text).run
    match ← host.close path octets with
    | .ok _ => return .ofResult result
    | .error e => return { Outcome.ofResult result with code := .error e }

/-- Runs the program with options that were understood. -/
def execute (host : Host m) (options : Options) : m Outcome := do
  match ← (readDump host options.dump).run with
  | .error e => return .ofResult (.error e)
  | .ok module =>
    match givenPath options.trace with
    | none => return .ofResult (← (report host options module).run)
    | some path => reportTraced host options module path

/-- Runs the program with the words of a command line. -/
def run (host : Host m) (arguments : List Text) : m Outcome := do
  match read arguments with
  | .error e =>
    return ⟨.ok 2, [], usage ++ "termsexp: error: " ++ e.message ++ [Text.newline]⟩
  | .ok .help => return ⟨.ok 0, help, []⟩
  | .ok (.run options) => execute host options

end

end TermText.Cli
