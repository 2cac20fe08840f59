import FilemanagerHttpd.Audit.HeaderLines
import FilemanagerHttpd.Server.Environment

/-!
# Headers in pieces

A header may come in any pieces as long as no piece ends in a line behind a zero byte. There the
next call goes on at the zero, and writes over what follows it.
-/

namespace FilemanagerHttpd.Audit

open Library Server

/-- How the pieces matter to a parser: clean cuts of a text come to the same, with as many bytes
taken, and a cut behind a zero makes the line go on without the bytes from there to the cut. -/
structure CutsKnown {σ : Type} (append : σ → Bytes → Except Fault (σ × Option Nat)) : Prop where
  agree : ∀ s pieces pieces', pieces.flatten = pieces'.flatten → CutsClean append s pieces →
    CutsClean append s pieces' → calls append s pieces = calls append s pieces'
  lost : ∀ s s' front behind next, nul ∉ openPart front → lf ∉ behind → next ≠ [] →
    append s (front ++ nul :: behind) = .ok (s', none) →
      calls append s [front ++ nul :: behind, next] =
        (calls append s [front ++ next]).map fun r => (r.1, behind.length + 1 + r.2.1, r.2.2)

theorem cutsKnown_reader {σ : Type} (R : LineReader σ Fault) :
    CutsKnown (R.append (splitAtByte lf)) where
  agree s pieces pieces' htext hclean hclean' := by
    rw [LineReader.calls_flatten splitAtByte_cuts hclean,
      LineReader.calls_flatten splitAtByte_cuts hclean', htext]
  lost _ _ _ _ _ hfront hbehind hnext hcall :=
    LineReader.calls_lost splitAtByte_cuts hfront hbehind hnext hcall

end FilemanagerHttpd.Audit
