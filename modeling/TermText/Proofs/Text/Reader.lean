import TermText.Proofs.Text.Ascii

/-!
# Reading line by line without understanding

A reader that knows nothing of what a line means goes over it from the left, counts the parentheses outside
string tokens, and takes a token to end at its first quote that no backslash escapes. On a safe line it finds
the tokens that were written, whatever the texts in them hold, and all parentheses balanced, the first one
being closed at the end and no earlier.
-/

namespace TermText

/-- A code point that a reader passes over outside string tokens. -/
def CodePoint.Quiet (c : CodePoint) : Prop :=
  c ≠ CodePoint.ofChar '(' ∧ c ≠ CodePoint.ofChar ')' ∧ c ≠ CodePoint.ofChar '"'

/-- Whether a code point is quiet is decided by comparing. -/
instance : DecidablePred CodePoint.Quiet := fun c =>
  inferInstanceAs (Decidable (c ≠ CodePoint.ofChar '(' ∧ c ≠ CodePoint.ofChar ')' ∧ c ≠ CodePoint.ofChar '"'))

/-- A text of such code points. -/
def Text.Quiet (t : Text) : Prop :=
  ∀ c ∈ t, c.Quiet

/-- Whether a text is quiet is decided along the text. -/
instance (t : Text) : Decidable t.Quiet :=
  List.decidableBAll CodePoint.Quiet t

namespace Reader

/-- Where a reader stands: outside string tokens, within one, or within one behind a backslash. -/
inductive Place where
  | outside
  | inside
  | behind
  deriving DecidableEq

end Reader

/-- What a reader has seen: how many parentheses are open, the token that it is within so far, and the tokens
that have ended. -/
structure Reader where
  depth : Int
  place : Reader.Place
  token : Text
  tokens : List Text
  deriving DecidableEq

namespace Reader

/-- A reader that has seen nothing. -/
def start : Reader :=
  ⟨0, .outside, [], []⟩

/-- The reader after one more code point. -/
def step (r : Reader) (c : CodePoint) : Reader :=
  match r.place with
  | .outside =>
    if c = CodePoint.ofChar '(' then { r with depth := r.depth + 1 }
    else if c = CodePoint.ofChar ')' then { r with depth := r.depth - 1 }
    else if c = CodePoint.ofChar '"' then { r with place := .inside, token := [c] }
    else r
  | .inside =>
    if c = CodePoint.ofChar '"' then
      { r with place := .outside, token := [], tokens := r.tokens ++ [r.token ++ [c]] }
    else if c = CodePoint.ofChar '\\' then { r with place := .behind, token := r.token ++ [c] }
    else { r with token := r.token ++ [c] }
  | .behind => { r with place := .inside, token := r.token ++ [c] }

/-- The reader after a text. -/
def read (r : Reader) (t : Text) : Reader :=
  t.foldl step r

/-- A reader gets from one state to another over a text, with no fewer than `floor` parentheses open at any
point on the way. -/
inductive Passes (floor : Int) : Reader → Text → Reader → Prop
  | stop {r : Reader} (h : floor ≤ r.depth) : Passes floor r [] r
  | step {r r' : Reader} {c : CodePoint} {t : Text} (h : floor ≤ r.depth)
      (rest : Passes floor (r.step c) t r') : Passes floor r (c :: t) r'

namespace Passes

variable {floor : Int} {r r' r'' : Reader} {s t : Text}

/-- One text after another is passed if each is. -/
theorem append (first : Passes floor r s r') (last : Passes floor r' t r'') :
    Passes floor r (s ++ t) r'' := by
  induction first with
  | stop h => exact last
  | step h rest ih => exact .step h (ih last)

/-- A reader that stays above a floor stays above a lower one. -/
theorem mono {lower : Int} (h : lower ≤ floor) (hpasses : Passes floor r t r') : Passes lower r t r' := by
  induction hpasses with
  | stop hdepth => exact .stop (Int.le_trans h hdepth)
  | step hdepth rest ih => exact .step (Int.le_trans h hdepth) ih

/-- Where a reader passes to is where it reads to. -/
theorem read_eq (h : Passes floor r t r') : r.read t = r' := by
  induction h with
  | stop => rfl
  | step h rest ih => exact ih

/-- At every point on the way the parentheses that were counted are open. -/
theorem floor_le (h : Passes floor r t r') {p : Text} (hp : p <+: t) : floor ≤ (r.read p).depth := by
  induction h generalizing p with
  | stop h =>
    obtain rfl := List.prefix_nil.mp hp
    exact h
  | step h rest ih =>
    cases p with
    | nil => exact h
    | cons d p =>
      obtain ⟨rfl, hrest⟩ := List.cons_prefix_cons.mp hp
      exact ih hrest

end Passes

/-- A text that leaves a reader where it is outside tokens, but for the tokens in it: its parentheses balance
and none closes one that was open before. -/
def Balanced (t : Text) (tokens : List Text) : Prop :=
  ∀ (depth : Int) (before : List Text),
    Passes depth ⟨depth, .outside, [], before⟩ t ⟨depth, .outside, [], before ++ tokens⟩

section Balanced

variable {s t : Text} {tokens tokens' : List Text}

/-- Two balanced texts are balanced together, with the tokens of both. -/
theorem Balanced.append (hs : Balanced s tokens) (ht : Balanced t tokens') :
    Balanced (s ++ t) (tokens ++ tokens') := by
  intro depth before
  have hlast := ht depth (before ++ tokens)
  rw [List.append_assoc] at hlast
  exact (hs depth before).append hlast

/-- A text of quiet code points is balanced, and it holds no token. -/
theorem balanced_of_quiet (h : t.Quiet) : Balanced t [] := by
  intro depth before
  rw [List.append_nil]
  induction t with
  | nil => exact .stop (Int.le_refl _)
  | cons c rest ih =>
    obtain ⟨⟨hopen, hclose, hquote⟩, hrest⟩ := List.forall_mem_cons.mp h
    refine .step (Int.le_refl _) ?_
    simp only [step, if_neg hopen, if_neg hclose, if_neg hquote]
    exact ih hrest

/-- Quiet texts on either side add no tokens. -/
theorem Balanced.after_quiet (ht : Balanced t tokens) (hs : s.Quiet) : Balanced (s ++ t) tokens :=
  (balanced_of_quiet hs).append ht

/-- A balanced text stays balanced with a quiet one behind it. -/
theorem Balanced.before_quiet (hs : Balanced s tokens) (ht : t.Quiet) : Balanced (s ++ t) tokens := by
  have h := hs.append (balanced_of_quiet ht)
  rwa [List.append_nil] at h

/-- Behind a parenthesis that opens, a balanced text is passed with one more open. -/
theorem Balanced.passes_open (ht : Balanced t tokens) (depth : Int) (before : List Text) :
    Passes (depth + 1) (step ⟨depth, .outside, [], before⟩ (CodePoint.ofChar '(')) t
      ⟨depth + 1, .outside, [], before ++ tokens⟩ :=
  ht (depth + 1) before

/-- A balanced text between parentheses is balanced. -/
theorem Balanced.parenthesized (ht : Balanced t tokens) :
    Balanced (CodePoint.ofChar '(' :: (t ++ [CodePoint.ofChar ')'])) tokens := by
  intro depth before
  have hclose : step ⟨depth + 1, .outside, [], before ++ tokens⟩ (CodePoint.ofChar ')') =
      ⟨depth, .outside, [], before ++ tokens⟩ := by
    have hne : CodePoint.ofChar ')' ≠ CodePoint.ofChar '(' := by decide
    simp [step, hne]
  have hlast : Passes depth ⟨depth + 1, .outside, [], before ++ tokens⟩ [CodePoint.ofChar ')']
      ⟨depth, .outside, [], before ++ tokens⟩ := by
    refine .step (Int.le_add_one (Int.le_refl depth)) ?_
    rw [hclose]
    exact .stop (Int.le_refl depth)
  have hitems := (ht.passes_open depth before).mono (Int.le_add_one (Int.le_refl depth))
  exact .step (Int.le_refl depth) (hitems.append hlast)

end Balanced

/-- A text within a token that a reader passes without seeing the token end. -/
def Held (t : Text) : Prop :=
  ∀ (depth : Int) (token : Text) (before : List Text),
    Passes depth ⟨depth, .inside, token, before⟩ t ⟨depth, .inside, token ++ t, before⟩

/-- Two texts that are held within a token are held together. -/
theorem Held.append {s t : Text} (hs : Held s) (ht : Held t) : Held (s ++ t) := by
  intro depth token before
  have hlast := ht depth (token ++ s) before
  rw [List.append_assoc] at hlast
  exact (hs depth token before).append hlast

/-- A code point other than the quote and the backslash is held as it is. -/
theorem held_singleton {c : CodePoint} (hquote : c ≠ CodePoint.ofChar '"')
    (hslash : c ≠ CodePoint.ofChar '\\') : Held [c] := by
  intro depth token before
  refine .step (Int.le_refl _) ?_
  simp only [step, if_neg hquote, if_neg hslash]
  exact .stop (Int.le_refl _)

/-- Whatever is behind a backslash is held with it. -/
theorem held_escape (c : CodePoint) : Held [CodePoint.ofChar '\\', c] := by
  intro depth token before
  have hslash : CodePoint.ofChar '\\' ≠ CodePoint.ofChar '"' := by decide
  refine .step (Int.le_refl _) (.step ?_ ?_)
  · simp [step, hslash]
  · simp only [step, if_neg hslash, if_true, List.append_assoc]
    exact .stop (Int.le_refl _)

/-- The empty text is held. -/
theorem held_nil : Held [] := by
  intro depth token before
  rw [List.append_nil]
  exact .stop (Int.le_refl _)

/-- What is written piece by piece is held if each piece is. -/
theorem held_flatMap {α : Type} {xs : List α} {write : α → Text} (h : ∀ x ∈ xs, Held (write x)) :
    Held (xs.flatMap write) := by
  induction xs with
  | nil => exact held_nil
  | cons x rest ih =>
    obtain ⟨hx, hrest⟩ := List.forall_mem_cons.mp h
    rw [List.flatMap_cons]
    exact hx.append (ih hrest)

/-- Hexadecimal digits are held. -/
theorem held_hexadecimal (width n : Nat) : Held (Hexadecimal.ofNat width n) := by
  have hdigit : ∀ d : Fin 16, Hexadecimal.digit d ≠ CodePoint.ofChar '"' ∧
      Hexadecimal.digit d ≠ CodePoint.ofChar '\\' := by decide
  induction width generalizing n with
  | zero => exact held_nil
  | succ width ih =>
    obtain ⟨hquote, hslash⟩ := hdigit ⟨n % 16, Nat.mod_lt n (by decide)⟩
    exact (ih (n / 16)).append (held_singleton hquote hslash)

/-- No code of a unit ends a token: its quote, if there is one, is behind a backslash. -/
theorem held_unitCode (unit : Nat) : Held (Text.unitCode unit) := by
  rcases Text.unitCode_cases unit with ⟨letter, -, hcode⟩ | ⟨-, hhigh, hquote, hslash, hcode⟩ | hcode
  · rw [hcode]
    exact held_escape letter
  · have hval : (CodePoint.ofNat unit).val = unit := by
      rw [CodePoint.val_ofNat, Nat.mod_eq_of_lt (by omega)]
    rw [hcode]
    refine held_singleton (fun h => hquote ?_) fun h => hslash ?_
    · rw [← hval, h]
      rfl
    · rw [← hval, h]
      rfl
  · rw [hcode]
    exact (held_escape (CodePoint.ofChar 'u')).append (held_hexadecimal 4 unit)

/-- A token is balanced, and it is read as one token. -/
theorem balanced_tokenOf (units : List Nat) : Balanced (Text.tokenOf units) [Text.tokenOf units] := by
  intro depth before
  have hopen : Passes depth ⟨depth, .outside, [], before⟩ [CodePoint.ofChar '"']
      ⟨depth, .inside, [CodePoint.ofChar '"'], before⟩ :=
    .step (Int.le_refl _) (.stop (Int.le_refl _))
  have hunits := held_flatMap (fun unit (_ : unit ∈ units) => held_unitCode unit) depth
    [CodePoint.ofChar '"'] before
  have hclose : Passes depth
      ⟨depth, .inside, [CodePoint.ofChar '"'] ++ units.flatMap Text.unitCode, before⟩ [CodePoint.ofChar '"']
      ⟨depth, .outside, [], before ++ [Text.tokenOf units]⟩ :=
    .step (Int.le_refl _) (.stop (Int.le_refl _))
  exact (hopen.append hunits).append hclose

/-- An escaped text is balanced and is one token. -/
theorem balanced_escaped (t : Text) : Balanced t.escaped [t.escaped] :=
  t.escaped_eq_tokenOf ▸ balanced_tokenOf t.units

end Reader

/-- A line in ASCII that a reader passes with given tokens: it ends outside tokens with all parentheses closed,
and at every point between its ends one is open. -/
structure Text.SafeLine (t : Text) (tokens : List Text) : Prop where
  ascii : t.Ascii
  closes : Reader.start.read t = ⟨0, .outside, [], tokens⟩
  stays_open : ∀ p, p <+: t → p ≠ [] → p ≠ t → 0 < (Reader.start.read p).depth

/-- A balanced text in ASCII between parentheses is a safe line. -/
theorem Reader.Balanced.safeLine {t : Text} {tokens : List Text} (h : Balanced t tokens)
    (hascii : Text.Ascii (CodePoint.ofChar '(' :: (t ++ [CodePoint.ofChar ')']))) :
    Text.SafeLine (CodePoint.ofChar '(' :: (t ++ [CodePoint.ofChar ')'])) tokens := by
  refine ⟨hascii, (h.parenthesized 0 []).read_eq, fun p hp hne hproper => ?_⟩
  cases p with
  | nil => exact absurd rfl hne
  | cons c p =>
    obtain ⟨rfl, hrest⟩ := List.cons_prefix_cons.mp hp
    rcases List.prefix_concat_iff.mp hrest with heq | hinner
    · exact absurd (heq ▸ rfl) hproper
    · exact (h.passes_open 0 []).floor_le hinner

end TermText
