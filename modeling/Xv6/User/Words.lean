/-
  The words of a command in the line.

  `parsecmd_words`: `parsecmd` derives its command from the tokens of the line word by word, so that each
  `argv[i]` and each `file` is what `gettoken` delimited for it.  After `nulterminate` the words read as
  they stood, no character of a word is lost, and `argv` has room for its null pointer.
-/
import Xv6.User.Grammar

namespace Xv6.Sh

/-- The null pointer behind its words is in `argv[MAXARGS]`. -/
def Cmd.Fits {ω : Type} : Cmd ω → Prop
  | exec argv => argv.length < MAXARGS
  | redir cmd _ _ _ => cmd.Fits
  | pipe left right => left.Fits ∧ right.Fits
  | list left right => left.Fits ∧ right.Fits
  | back cmd => cmd.Fits

section fits

variable {ω : Type} {c : Cmd ω}

theorem Cmd.Fits.backs (h : c.Fits) (k : Nat) : (Cmd.back^[k] c).Fits := by
  induction k generalizing c with
  | zero => exact h
  | succ k ih => exact ih h

theorem Cmd.Fits.wrap (h : c.Fits) (rs : List (Redir ω)) : (wrap rs c).Fits := by
  induction rs generalizing c with
  | nil => exact h
  | cons r rs ih => exact ih h

theorem Derives.fits {x : Nonterminal} {ts : List (Token ω)} (h : Derives x ts c) : c.Fits := by
  induction h with
  | line k _ ih => exact ih.backs k
  | list k _ _ ihc ihd => exact ⟨ihc.backs k, ihd⟩
  | one _ ih => exact ih
  | pipe _ _ ihc ihd => exact ⟨ihc, ihd⟩
  | block _ _ ih => exact ih.wrap _
  | exec _ _ hlen => exact Cmd.Fits.wrap (c := .exec _) (Nat.lt_succ_of_le hlen) _

end fits

/-- The parser rejects the line, or returns the command that the tokens of the line derive, where a word
    is the pair of pointers that `gettoken` returned for it.  Every word is a maximal run of characters
    and is read back as it stood, no NUL is written over a character of a word, and every `argv` is
    terminated. -/
theorem parsecmd_words (buf : List Char) :
    Parses (fun fuel => parsecmd fuel buf) fun cmd out =>
      Derives .line (toks (lineOf buf)) cmd ∧
      cmd.All (fun w => Delimited (lineOf buf) w ∧ cstring (lineOf buf).length out w.1 = text w) ∧
      Keeps (lineOf buf) out ∧ cmd.Fits := by
  refine (parsecmd_sound buf).mono ?_
  rintro cmd out ⟨hcmd, rfl⟩
  have hwords := derives_words hcmd
  have hterm := nulterminate_spec (hwords.imp hwords fun _ hw _ => hw.toIsWord)
    ⟨rfl, fun _ _ hc _ => hc⟩
  refine ⟨hcmd, hwords.imp hterm.done fun w hw hdone => ⟨hw, ?_⟩, hterm.keeps, hcmd.fits⟩
  exact hw.toIsWord.cstring (nul_not_mem_lineOf buf) hterm.keeps hdone

end Xv6.Sh
