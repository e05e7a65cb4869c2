import Zaban.Proofs.Grammar.Atoms
import Zaban.Proofs.Grammar.Complete

/-!
# The parser recognises the grammar

For a text that was scanned to its end, `parse` succeeds exactly on the
programs of the grammar, and gives one of their trees. The two directions are
those of `Zaban.Proofs.Grammar.Sound` and `Zaban.Proofs.Grammar.Complete`; what
is added here is that the fuel of `parse` is enough for both.
-/

namespace Zaban

open Grammar

/-- A parsed text is a program of the grammar, and has the tree that was built for it. -/
theorem program_of_parse {source : String} {n : Node} (h : parse source = .ok n) :
    Program (scan source).tokens n := by
  rw [parse, Scan.parse] at h
  split at h
  · rename_i body rest hRead
    obtain ⟨-, hBody⟩ := readProgram_sound hRead
    obtain rfl := Except.ok.inj h
    exact .body hBody
  · cases h
  · cases h

/-- A program of the grammar parses, if its text was scanned to the end. -/
theorem parse_of_program {source : String} {p : Position}
    (hEnd : (scan source).ending = .finished p) {n : Node}
    (h : Program (scan source).tokens n) : ∃ m, parse source = .ok m := by
  cases h with
  | body hBody =>
    have hFuel : 4 * (scan source).tokens.length + 5 ≤ parseFuel (scan source).tokens.length := by
      unfold parseFuel
      omega
    obtain ⟨ys, hRead⟩ := @readProgram_complete p _ _ hBody _ hFuel
    exact ⟨.program ys, by rw [parse, Scan.parse, hEnd, hRead]⟩

/--
**The parser recognises the grammar.** A text that was scanned to its end
parses exactly when its tokens are a program of the grammar. The tree is then
the tree of a derivation of exactly these tokens, and it says what they say:
their names, literals, operators, functions and conditionals, each as often as
it stands there and in the same order, with a false literal for every empty
block, and nothing else.
-/
theorem parse_ok_iff_program {source : String} {p : Position}
    (hEnd : (scan source).ending = .finished p) :
    ((∃ n, parse source = .ok n) ↔ ∃ n, Program (scan source).tokens n) ∧
      ∀ n, parse source = .ok n →
        Program (scan source).tokens n ∧ n.atoms = contents (scan source).tokens := by
  refine ⟨⟨?_, ?_⟩, ?_⟩
  · rintro ⟨n, hParse⟩
    exact ⟨n, program_of_parse hParse⟩
  · rintro ⟨n, hProgram⟩
    exact parse_of_program hEnd hProgram
  · intro n hParse
    have hProgram := program_of_parse hParse
    exact ⟨hProgram, hProgram.contents_eq.symm⟩

/-- A text with a dangling `nate`, a branch without `teli`, an empty block and trailing separators
is scanned to its end. -/
theorem parse_ok_iff_program_dangling :
    (scan "yeli a teli yeli b \x7b\x7d nate λ(x,) x = f(y,);").ending = .finished ⟨1, 43⟩ ∧
      ((∃ n, parse "yeli a teli yeli b \x7b\x7d nate λ(x,) x = f(y,);" = .ok n) ↔
        ∃ n, Program (scan "yeli a teli yeli b \x7b\x7d nate λ(x,) x = f(y,);").tokens n) := by
  have hEnd : (scan "yeli a teli yeli b \x7b\x7d nate λ(x,) x = f(y,);").ending =
      .finished ⟨1, 43⟩ := rfl
  exact ⟨hEnd, (parse_ok_iff_program hEnd).1⟩

end Zaban
