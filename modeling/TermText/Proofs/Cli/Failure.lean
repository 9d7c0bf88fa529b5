import TermText.Cli.Run

/-!
# What a failing run leaves

A run whose words were understood prints its result, or fails: it then prints nothing but a message, and
if it was the dump that failed, every file is as it was. Nothing is opened or made before the dump is
loaded, and nothing is printed before all else has gone well.

One failure is not caught. A trace is closed after the run has settled what to print, and a host may refuse
that: on a full device the octets held back are refused once more, and the run ends without an exit code.

Nothing is assumed of the host but that it can be looked at without a change.
-/

namespace TermText.Cli

/-- A computation that leaves the state as it is. -/
def Keeps {σ α : Type} (x : StateM σ α) : Prop :=
  ∀ s, (x.run s).2 = s

namespace Keeps

variable {σ ε α β : Type}

/-- A value leaves the state as it is. -/
theorem pure (a : α) : Keeps (Pure.pure a : StateM σ α) :=
  fun _ => rfl

/-- What is made of a result leaves the state as the result did. -/
theorem map {x : StateM σ α} (h : Keeps x) (f : α → β) : Keeps (f <$> x) :=
  h

/-- A step that may fail and what follows it leave the state as it is if both do. -/
theorem bind {x : ExceptT ε (StateM σ) α} {f : α → ExceptT ε (StateM σ) β} (hx : Keeps x.run)
    (hf : ∀ a, Keeps (f a).run) : Keeps (x >>= f).run := by
  intro s
  have hsame := hx s
  change (ExceptT.bindCont f (x.run.run s).1 (x.run.run s).2).2 = s
  rw [hsame]
  cases (x.run.run s).1 with
  | ok a => exact hf a s
  | error e => rfl

end Keeps

end TermText.Cli

namespace TermText

/-- A host of which the input and the files can be looked at without a change. -/
structure Host.Observes {σ : Type} (host : Host (StateM σ)) : Prop where
  input : Cli.Keeps host.input
  present : ∀ path, Cli.Keeps (host.present path)
  read : ∀ path, Cli.Keeps (host.read path)

/-- A store is not changed by looking at it. -/
theorem Store.host_observes (input : Text) : (Store.host input).Observes :=
  ⟨fun _ => rfl, fun _ _ => rfl, fun _ _ => rfl⟩

/-- A full device changes nothing of how a host is looked at. -/
theorem Host.Observes.withFullDevice {σ : Type} {host : Host (StateM σ)} (h : host.Observes)
    (device : Text) : (host.withFullDevice device).Observes :=
  ⟨h.input, h.present, h.read⟩

end TermText

namespace TermText.Cli

section

variable {σ : Type} {host : Host (StateM σ)}

/-- What follows a step goes on from its result and the state it left. -/
theorem run_bind {α β : Type} {x : StateM σ α} {a : α} {s next : σ} (h : x.run s = (a, next))
    (f : α → StateM σ β) : (x >>= f).run s = (f a).run next := by
  change (f (x.run s).1).run (x.run s).2 = (f a).run next
  rw [h]

/-- Reading, parsing and loading a dump leaves the state as it is. -/
theorem readDump_keeps (observes : host.Observes) (path : Text) : Keeps (readDump host path).run := by
  unfold readDump
  split
  · exact .bind (.map observes.input _) fun t => .pure _
  · refine .bind (.map (observes.present _) _) fun present => ?_
    split
    · exact .bind (.map (observes.read _) _) fun octets => .pure _
    · exact .pure _

/-- An outcome that shows a result or a message: with the code 0 nothing but the result is printed, with
the code 1 nothing but the message. -/
inductive Outcome.Shown : Outcome → Prop
  | result (output : Text) : Shown ⟨.ok 0, output, []⟩
  | message (e : RunError) : Shown ⟨.ok 1, [], "termsexp: " ++ e.message ++ [Text.newline]⟩

/-- The outcome of a run with a result or a failure shows it. -/
theorem Outcome.shown_ofResult (result : Except RunError Text) : (Outcome.ofResult result).Shown := by
  cases result with
  | ok output => exact .result output
  | error e => exact .message e

/-- A run whose trace could not be closed: the dump was loaded from the state the run began with, the trace
was opened, and the run would otherwise have ended with an outcome that shows a result or a message. -/
inductive Unclosed (host : Host (StateM σ)) (options : Options) (s : σ) : Outcome × σ → Prop
  | intro {path : Text} {m : Module} {opened before after : σ} {e : FileError} {shown : Outcome}
      (given : givenPath options.trace = some path)
      (loaded : (readDump host options.dump).run.run s = (.ok m, s))
      (opening : (host.openFile path).run s = (.ok (), opened))
      (closing : (host.close path (traceOctets options m)).run before = (.error e, after))
      (otherwise : shown.Shown) :
      Unclosed host options s ({ shown with code := .error e }, after)

/-- Once the dump is loaded, a run that writes a trace shows its outcome unless the trace cannot be
closed. -/
theorem reportTraced_shown_or_unclosed {options : Options} {path : Text} {m : Module} {s : σ}
    (given : givenPath options.trace = some path)
    (loaded : (readDump host options.dump).run.run s = (.ok m, s)) :
    ((reportTraced host options m path).run s).1.Shown ∨
      Unclosed host options s ((reportTraced host options m path).run s) := by
  rw [reportTraced]
  cases hopen : (host.openFile path).run s with
  | mk result opened =>
    rw [run_bind hopen]
    cases result with
    | error e => exact .inl (.message _)
    | ok _ =>
      cases hsettle : (do
          ExceptT.mk ((·.mapError .file) <$> host.fill path (traceOctets options m))
          report host options m : ExceptT RunError (StateM σ) Text).run.run opened with
      | mk settled before =>
        dsimp only
        rw [run_bind hsettle]
        cases hclose : (host.close path (traceOctets options m)).run before with
        | mk closed after =>
          rw [run_bind hclose]
          cases closed with
          | ok _ => exact .inl (Outcome.shown_ofResult settled)
          | error e =>
            exact .inr (.intro given loaded hopen hclose (Outcome.shown_ofResult settled))

/-- A trace on a full device that is held back as a whole is refused twice: when it is written, which the run
reports, and when it is closed, which ends the run without an exit code. -/
theorem reportTraced_full_device {options : Options} {m : Module} {device : Text}
    (small : (traceOctets options m).length ≤ Host.bufferSize) (s : σ) :
    (reportTraced (host.withFullDevice device) options m device).run s =
      ({ Outcome.ofResult (.error (.file ⟨.noSpace, device⟩)) with code := .error ⟨.noSpace, device⟩ }, s) := by
  let full := host.withFullDevice device
  let octets := traceOctets options m
  have hopen : (full.openFile device).run s = (.ok (), s) := by
    simp only [full, Host.withFullDevice, if_true]
    rfl
  have hfill : full.fill device octets = pure (.error ⟨.noSpace, device⟩) := if_pos rfl
  have hclose : (full.close device octets).run s = (.error ⟨.noSpace, device⟩, s) := by
    simp only [full, Host.withFullDevice, if_true, octets, if_pos small]
    rfl
  have hsettle : (do
      ExceptT.mk ((·.mapError .file) <$> full.fill device octets)
      report full options m : ExceptT RunError (StateM σ) Text).run.run s =
        (.error (.file ⟨.noSpace, device⟩), s) := by
    rw [hfill]
    rfl
  rw [reportTraced, run_bind hopen]
  dsimp only
  rw [run_bind hsettle, run_bind hclose]
  rfl

/-- A run of which the words were understood prints its result and nothing else, or its message and nothing
else, unless its trace cannot be closed; and if the dump cannot be read, parsed or loaded, the message says
why and the state is the one before the run: no file or directory was made, emptied or changed. -/
theorem run_shows_unless_unclosed (observes : host.Observes) {arguments : List Text} {options : Options}
    (accepted : read arguments = .ok (.run options)) (s : σ) :
    (((run host arguments).run s).1.Shown ∨ Unclosed host options s ((run host arguments).run s)) ∧
      ∀ e after, (readDump host options.dump).run.run s = (.error e, after) →
        (run host arguments).run s = (Outcome.ofResult (.error e), s) := by
  have hrun : run host arguments = execute host options := by rw [run, accepted]
  rw [hrun, execute]
  cases hread : (readDump host options.dump).run.run s with
  | mk result after =>
    have hsame : after = s := by
      have hkeeps := readDump_keeps observes options.dump s
      rwa [hread] at hkeeps
    subst hsame
    rw [run_bind hread]
    cases result with
    | error e =>
      refine ⟨.inl (.message e), ?_⟩
      rintro _ _ ⟨⟩
      rfl
    | ok m =>
      refine ⟨?_, fun e after h => by cases h⟩
      cases given : givenPath options.trace with
      | none => exact .inl (Outcome.shown_ofResult _)
      | some path => exact reportTraced_shown_or_unclosed given hread

end

/-- A dump that is no text, with a trace that is there already and an output in a directory that is not:
the message is printed, and the store is the same. -/
theorem run_shows_unless_unclosed_of_octet :
    let s : Store := ⟨[(.working 0, [("d.json", .file [255]), ("t.jsonl", .file [7])])]⟩
    let words : List Text := ["d.json", "--trace-jsonl", "t.jsonl", "-o", "new/o.txt"]
    (run (Store.host []) words).run s =
      (⟨.ok 1, [], "termsexp: 'utf-8' codec can't decode byte 0xff in position 0: invalid start byte\n"⟩,
        s) := by
  intro s words
  have hread : (readDump (Store.host []) "d.json").run.run s =
      (.error (.decode ⟨255, 0, 1, .invalidStart⟩), s) := rfl
  have herrors : "termsexp: " ++ (RunError.decode ⟨255, 0, 1, .invalidStart⟩).message ++ [Text.newline] =
      ("termsexp: 'utf-8' codec can't decode byte 0xff in position 0: invalid start byte\n" : Text) := by
    decide +kernel
  rw [← herrors]
  exact (run_shows_unless_unclosed (Store.host_observes []) rfl s).2 _ _ hread

/-- A run may end without an exit code: a trace on a full device is refused once more when it is closed. -/
theorem not_run_shown :
    ¬ ∀ (host : Host (StateM Store)) (arguments : List Text) (options : Options) (s : Store),
      host.Observes → read arguments = .ok (.run options) →
        ((run host arguments).run s).1.Shown := by
  intro h
  let host := (Store.host "{}").withFullDevice "/dev/full"
  let words : List Text := ["-", "--trace-jsonl", "/dev/full"]
  let options : Options := ⟨"-", none, false, some "/dev/full", false⟩
  have hread : (readDump host options.dump).run.run .empty = (.ok ⟨.anonymous, []⟩, .empty) := rfl
  have hrun : (run host words).run .empty = (reportTraced host options ⟨.anonymous, []⟩ "/dev/full").run .empty := by
    change (execute host options).run .empty = _
    rw [execute, run_bind hread]
    rfl
  have hshown := h host words options .empty ((Store.host_observes _).withFullDevice _) rfl
  rw [hrun, reportTraced_full_device (by decide +kernel)] at hshown
  cases hshown

end TermText.Cli
