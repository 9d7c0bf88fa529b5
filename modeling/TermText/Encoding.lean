import TermText.Foreign
import TermText.Json.Number

/-!
# Encodings that may fail

Why something has no encoding, and the encodings of several parts together: they succeed exactly if
each part does. An encoding is one that is rendered afterwards: something that gives no integer is a
failure here, though it would stop no more than the rendering. So a number is looked at only when
everything else is encoded, and of two failures one at a number gives way to one at a foreign object,
wherever they stand; otherwise the first one is reported. That these are the two stages, one after the
other, is `Encoding.staged_all`.
-/

namespace TermText

/-- Why something has no encoding: a foreign object stands where a part of the model is due, or
something that gives no integer where a number is due. -/
inductive EncodeError where
  | level (f : Foreign)
  | term (f : Foreign)
  | payload (f : Foreign)
  | number (error : Json.IntegerError)
  deriving DecidableEq, Repr

namespace EncodeError

/-- The wording of a failure to encode. -/
def message : EncodeError → Text
  | .level f => "Unsupported universe level: " ++ describeClass f.className
  | .term f => "Unsupported term for encoding: " ++ describeClass f.className
  | .payload f => "Unsupported declaration payload: " ++ describeClass f.className
  | .number error => error.message

/-- Whether a number is at fault. -/
def isAtNumber : EncodeError → Bool
  | .number _ => true
  | _ => false

/-- Of a failure and a later one, the one that is reported. -/
def reported (first later : EncodeError) : EncodeError :=
  if first.isAtNumber && !later.isAtNumber then later else first

end EncodeError

namespace Encoding

/-- The encodings of two parts together. -/
def pair {α β : Type} (a : Except EncodeError α) (b : Except EncodeError β) :
    Except EncodeError (α × β) :=
  match a, b with
  | .ok x, .ok y => .ok (x, y)
  | .ok _, .error later => .error later
  | .error first, .ok _ => .error first
  | .error first, .error later => .error (first.reported later)

/-- The encodings of several parts together. -/
def all {α : Type} : List (Except EncodeError α) → Except EncodeError (List α)
  | [] => .ok []
  | a :: rest =>
    match pair a (all rest) with
    | .ok (x, xs) => .ok (x :: xs)
    | .error e => .error e

/-- Two parts are encoded together exactly if each is. -/
theorem pair_eq_ok_iff {α β : Type} {a : Except EncodeError α} {b : Except EncodeError β}
    {x : α} {y : β} : pair a b = .ok (x, y) ↔ a = .ok x ∧ b = .ok y := by
  cases a <;> cases b <;> simp [pair]

/-- Several parts are encoded together exactly if each is. -/
theorem all_eq_ok_iff {α : Type} {parts : List (Except EncodeError α)} {values : List α} :
    all parts = .ok values ↔ parts = values.map .ok := by
  induction parts generalizing values with
  | nil => cases values <;> simp [all]
  | cons a rest ih =>
    cases values with
    | nil => cases together : pair a (all rest) <;> simp [all, together]
    | cons v vs =>
      have both := pair_eq_ok_iff (a := a) (b := all rest) (x := v) (y := vs)
      rw [ih] at both
      rw [List.map_cons, List.cons.injEq, ← both]
      cases together : pair a (all rest) <;> simp [all, together, Prod.ext_iff]

/-- The two stages of an encoding: what encoding by itself gives, which no number stops, and what the
rendering then makes of the numbers. -/
def staged {α : Type} : Except EncodeError α → Except EncodeError (Except Json.IntegerError α)
  | .ok x => .ok (.ok x)
  | .error (.number e) => .ok (.error e)
  | .error (.level f) => .error (.level f)
  | .error (.term f) => .error (.term f)
  | .error (.payload f) => .error (.payload f)

/-- Two parts are encoded one after the other, and only then rendered, one after the other. -/
theorem staged_pair {α β : Type} (a : Except EncodeError α) (b : Except EncodeError β) :
    staged (pair a b) = (staged a >>= fun x => staged b >>= fun y =>
      .ok (x >>= fun u => y >>= fun v => .ok (u, v))) := by
  rcases a with (_ | _ | _ | _) | _ <;> rcases b with (_ | _ | _ | _) | _ <;> rfl

/-- So are several parts. -/
theorem staged_all {α : Type} (parts : List (Except EncodeError α)) :
    staged (all parts) = (parts.mapM staged >>= fun stages => .ok (stages.mapM id)) := by
  induction parts with
  | nil => rfl
  | cons a rest ih =>
    have bound : staged (all (a :: rest)) =
        (staged (pair a (all rest)) >>= fun both => .ok (both >>= fun p => .ok (p.1 :: p.2))) := by
      rw [all]
      rcases pair a (all rest) with (_ | _ | _ | _) | _ <;> rfl
    rw [bound, staged_pair, ih, List.mapM_cons]
    cases staged a with
    | error e => rfl
    | ok x =>
      cases rest.mapM staged with
      | error e => rfl
      | ok stages =>
        -- Nothing is rendered before every part has its encoding.
        change Except.ok _ = Except.ok ((x :: stages).mapM id)
        rw [List.mapM_cons]
        cases x with
        | error e => rfl
        | ok u => cases stages.mapM id <;> rfl

end Encoding

end TermText
