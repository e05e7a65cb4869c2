import Zaban.Eval.Semantics
import Zaban.Proofs.Grammar.Climbing

/-!
# Programs in brackets

Expressions are separated by semicolons both at the top of a text and in a
block. The two are read in different ways, one up to the end of the text and
the other up to a brace, and come to the same: the ordered grammar has one
notion of a list for both, and an expression of it ends in front of a bracket
as it ends at the end of the text. So a text that is a program, put in braces,
is a program of one block, and one expression in parentheses is itself
(`brackets_keep_program`).

The line feed in front of the closing bracket ends a comment that would
otherwise take the bracket in.
-/

namespace Zaban

open Grammar (Listed)

-- ----------------------------------------------------------------------------
-- Brackets around a text
-- ----------------------------------------------------------------------------

/-- The text between two brackets, with a line feed before the second. -/
def bracketed (o c : Char) (source : String) : String :=
  String.ofList (o :: (source.toList ++ ['\n', c]))

theorem reading_bracketed {o c : Char} {source : String}
    (h : (reading source.toList).2 = none) (hOpen : isPunctuation o = true)
    (hClose : isPunctuation c = true) :
    reading (bracketed o c source).toList =
      (.punctuation o :: ((reading source.toList).1 ++ [.punctuation c]), none) := by
  rw [bracketed, String.toList_ofList, reading_mark hOpen, reading_newline h, reading_mark hClose]
  rfl

/-- An operand that ends with a token of its own is a program. -/
theorem Ordered.Closed.program {ts : List Token} {n : Node} (h : Ordered.Closed ts n) :
    Ordered.Program ts (.program [n]) := by
  have hOperand : Ordered.Operand ts n .tight := by
    simpa using Ordered.Operand.tight h .none
  have hExpression : Ordered.Expression ts ⟨n, .loose⟩ :=
    @Ordered.Expression.grouped ts (.operand n) .tight (.last hOperand) trivial
  exact .body (.last hExpression)

/-- Where brackets around the tokens of a text are an operand, brackets around the text are one. -/
theorem parse_bracketed {o c : Char} {source : String} {n : Node}
    (hEnd : (scan source).ending.fault? = none) (hOpen : isPunctuation o = true)
    (hClose : isPunctuation c = true)
    (hClosed : Ordered.Closed (⟨.punctuation o, .start⟩ ::
      ((scan source).tokens ++ [⟨.punctuation c, .start⟩])) n) :
    parse (bracketed o c source) = .ok (.program [n]) := by
  refine Scan.parse_ok_of_reading ?_ (hClosed.program.parse_eq .start)
  rw [scan_reading, reading_bracketed hEnd hOpen hClose, ← scan_reading]
  simp [Scan.reading, Ending.fault?]

/-- One item without a separator behind it is the whole list. -/
theorem Grammar.Listed.item_of_single {α : Type} {item : List Token → α → Prop} {separator : Char}
    {ts : List Token} {a : α} (h : Listed item separator ts [a])
    (hLast : ∀ t ∈ ts.getLast?, t.kind ≠ .punctuation separator) : item ts a := by
  cases h with
  | last hItem => exact hItem
  | cons hItem hMark hRest =>
    cases hRest
    exact absurd hMark (hLast _ (by simp))

-- ----------------------------------------------------------------------------
-- The value of a block
-- ----------------------------------------------------------------------------

/-- A block has the value of the program of its expressions, also where its tree is that of its one
expression, or the false literal for none. -/
theorem runIn_blockNode (call : Caller) (env : FrameId) (es : List Node) (w : World) :
    (evalNode call env (blockNode es)).runIn w = (evalNode call env (.program es)).runIn w := by
  rcases es with - | ⟨e, - | ⟨e', es⟩⟩
  · rfl
  · rw [blockNode, evalNode, evalSequence, EvalM.runIn_bind]
    rcases (evalNode call env e).runIn w with ⟨_ | _, _⟩ <;> rfl
  · rfl

/--
**A block is read as the program between its braces.** If a text is a program,
then the text in braces is a program of one expression: the false literal if
the program is empty, its expression if it has one, and the program itself if
it has more. One expression that no semicolon follows stays what it is in
parentheses.

The block has the value of the program, or its error, in every frame and every
world, whatever calling a value does, and leaves the same world with the same
output.
-/
theorem brackets_keep_program {source : String} {es : List Node}
    (h : parse source = .ok (.program es)) :
    ∃ b, (es = [] → b = .boolean false) ∧ (∀ e, es = [e] → b = e) ∧
      (2 ≤ es.length → b = .program es) ∧
      parse (bracketed '{' '}' source) = .ok (.program [b]) ∧
      (es.length = 1 →
        (∀ t ∈ (scan source).tokens.getLast?, t.kind ≠ .punctuation ';') →
        parse (bracketed '(' ')' source) = .ok (.program es)) ∧
      ∀ call env w, (evalNode call env b).runIn w = (evalNode call env (.program es)).runIn w := by
  have hEnd := Scan.finished_of_parse h
  obtain ⟨xs, rfl, hBody⟩ := Ordered.readProgram_sound (Scan.parse_eq_ok_iff.mp h)
  refine ⟨blockNode (xs.map Ordered.Reading.node), ?_, ?_, ?_, ?_, ?_, ?_⟩
  · intro hNone
    rw [hNone, blockNode]
  · intro e hOne
    rw [hOne, blockNode]
  · intro hMany
    rcases xs with - | ⟨x, - | ⟨y, ys⟩⟩
    · cases hMany
    · simp at hMany
    · rfl
  · exact parse_bracketed hEnd rfl rfl (.block rfl hBody rfl)
  · intro hOne hLast
    obtain ⟨x, rfl⟩ := List.length_eq_one_iff.mp ((List.length_map _).symm.trans hOne)
    exact parse_bracketed hEnd rfl rfl (.group rfl (hBody.item_of_single hLast) rfl)
  · exact fun call env w => runIn_blockNode call env _ w

/-- One expression with a comment behind it that holds a bracket, and two with a semicolon behind
the second. -/
theorem brackets_keep_program_comment :
    parse "λ(a) yeli a \x7bb;\x7d # )" =
        .ok (.program [.lambda ["a"] (.condition (.var "a") (.var "b") none)]) ∧
      parse (bracketed '(' ')' "λ(a) yeli a \x7bb;\x7d # )") =
        .ok (.program [.lambda ["a"] (.condition (.var "a") (.var "b") none)]) ∧
      parse "a; b;" = .ok (.program [.var "a", .var "b"]) ∧
      parse (bracketed '{' '}' "a; b;") = .ok (.program [.program [.var "a", .var "b"]]) := by
  have hOne : parse "λ(a) yeli a \x7bb;\x7d # )" =
      .ok (.program [.lambda ["a"] (.condition (.var "a") (.var "b") none)]) := by cbv
  have hTwo : parse "a; b;" = .ok (.program [.var "a", .var "b"]) := by cbv
  have hLast : (scan "λ(a) yeli a \x7bb;\x7d # )").tokens.getLast? =
      some ⟨.punctuation '}', ⟨1, 15⟩⟩ := by cbv
  obtain ⟨-, -, -, -, -, hGroup, -⟩ := brackets_keep_program hOne
  obtain ⟨b, -, -, hMany, hBlock, -⟩ := brackets_keep_program hTwo
  rw [hMany (by decide)] at hBlock
  refine ⟨hOne, hGroup rfl ?_, hTwo, hBlock⟩
  rw [hLast]
  rintro t ⟨⟩
  simp

end Zaban
