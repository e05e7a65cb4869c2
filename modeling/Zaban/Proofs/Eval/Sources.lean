import Mathlib
import Zaban.Eval.Run
import Zaban.Proofs.Grammar.Sequence

/-!
# Source texts that run alike

A run depends on its source text only through the tree, or through the error
if there is none. Two changes of a text that keep the tree therefore keep the
run:

* `run_ignores_layout` — blank text may be put in front of any token, and
  behind the last one.
* `run_newline` — a text may be cut behind a semicolon, and its two parts run
  one after the other.

The second needs of evaluation that a sequence of expressions is evaluated part
by part (`evalSequence_append`).
-/

namespace Zaban

-- ----------------------------------------------------------------------------
-- Layout
-- ----------------------------------------------------------------------------

/-- The error as it would be at the start of a text. -/
def RunError.placeless : RunError → RunError
  | parse error => .parse error.placeless
  | eval error => .eval error

/-- A run depends on its text through the reading, up to the position of an error. -/
theorem World.run_placeless {source source' : String}
    (h : reading source.toList = reading source'.toList) (w : World) (config : Config)
    (env : FrameId) :
    (w.run config env source).1.mapError RunError.placeless =
        (w.run config env source').1.mapError RunError.placeless ∧
      (w.run config env source).2 = (w.run config env source').2 := by
  have hParse : (parse source).mapError ParseError.placeless =
      (parse source').mapError ParseError.placeless := Scan.parse_placeless h
  unfold World.run
  cases hSource : parse source with
  | ok n =>
    cases hSource' : parse source' with
    | ok n' =>
      rw [hSource, hSource'] at hParse
      obtain rfl : n = n' := Except.ok.inj hParse
      exact ⟨rfl, rfl⟩
    | error e' =>
      rw [hSource, hSource'] at hParse
      cases hParse
  | error e =>
    cases hSource' : parse source' with
    | ok n' =>
      rw [hSource, hSource'] at hParse
      cases hParse
    | error e' =>
      rw [hSource, hSource'] at hParse
      have hCause : e.placeless = e'.placeless := Except.error.inj hParse
      refine ⟨?_, rfl⟩
      show Except.error (RunError.parse e.placeless) = .error (.parse e'.placeless)
      rw [hCause]

/-- Blank text in front of a token, or behind the last one, changes no reading. -/
theorem reading_layout {front back w : String} (hBlank : Blank w.toList)
    (hPlace : (∃ t ∈ (Lexer.ofText (front ++ back)).iterateAll.1,
        t.position = Position.start.after front.toList) ∨
      back = "" ∧ (Lexer.ofText (front ++ back)).iterateAll.2.1 = none) :
    reading (front ++ w ++ back).toList = reading (front ++ back).toList := by
  simp only [String.toList_append, List.append_assoc]
  rcases hPlace with ⟨t, hToken, hPosition⟩ | ⟨rfl, hEnd⟩
  · obtain ⟨past, rest, hText⟩ := iterateAll_decomposes (front ++ back)
    obtain ⟨front', back', hSplit, hPosition', hSame⟩ := hText.reading_insert hToken
    rw [String.toList_append] at hSplit
    rw [hPosition, Position.after_start] at hPosition'
    obtain rfl := Position.behind_injective hSplit hPosition'
    rw [← List.append_cancel_left hSplit] at hSame
    exact hSame w.toList hBlank
  · have hFault : (reading (front ++ "").toList).2 = none := by
      rw [← iterateAll_reading, hEnd]
      rfl
    rw [String.toList_append] at hFault
    simp only [String.toList_empty, List.append_nil] at hFault ⊢
    exact reading_append_blank hFault hBlank

/-- **Layout does not matter.** Blank text in front of a token, or behind the last token of a text
without a fault, changes neither the kinds of the tokens nor the fault that ends them. The text is
parsed to the same tree or refused for the same cause, and a run of it ends with the same value or
the same error in the same world. -/
theorem run_ignores_layout {front back w : String} (hBlank : Blank w.toList)
    (hPlace : (∃ t ∈ (Lexer.ofText (front ++ back)).iterateAll.1,
        t.position = Position.start.after front.toList) ∨
      back = "" ∧ (Lexer.ofText (front ++ back)).iterateAll.2.1 = none) :
    let tokens := (Lexer.ofText (front ++ back)).iterateAll
    let tokens' := (Lexer.ofText (front ++ w ++ back)).iterateAll
    tokens'.1.map Token.kind = tokens.1.map Token.kind ∧
      tokens'.2.1.map LexError.fault = tokens.2.1.map LexError.fault ∧
      (parse (front ++ w ++ back)).mapError ParseError.placeless =
        (parse (front ++ back)).mapError ParseError.placeless ∧
      ∀ (world : World) (config : Config) (env : FrameId),
        (world.run config env (front ++ w ++ back)).1.mapError RunError.placeless =
            (world.run config env (front ++ back)).1.mapError RunError.placeless ∧
          (world.run config env (front ++ w ++ back)).2 =
            (world.run config env (front ++ back)).2 := by
  have hReading := reading_layout hBlank hPlace
  have hTokens := (iterateAll_reading (front ++ w ++ back)).trans
    (hReading.trans (iterateAll_reading (front ++ back)).symm)
  obtain ⟨hKinds, hFaults⟩ := Prod.mk.inj hTokens
  exact ⟨hKinds, hFaults, Scan.parse_placeless hReading, World.run_placeless hReading⟩

/-- A comment and a tab are put in front of an operator, in a text that ends in an open string. -/
theorem run_ignores_layout_comment :
    Blank " # note\n\t".toList ∧
      (Lexer.ofText ("(x)" ++ "=\"a b\"+# c\n\"open")).iterateAll.1[3]? =
        some ⟨.operator "=", ⟨1, 3⟩⟩ ∧
      (Lexer.ofText ("(x)" ++ " # note\n\t" ++ "=\"a b\"+# c\n\"open")).iterateAll.1.map
          Token.kind =
        (Lexer.ofText ("(x)" ++ "=\"a b\"+# c\n\"open")).iterateAll.1.map Token.kind := by
  have hLine : '\n' ∉ " note".toList := by decide
  have hBlank : Blank " # note\n\t".toList :=
    .space rfl (.comment hLine (.space rfl .nil))
  have hToken : (Lexer.ofText ("(x)" ++ "=\"a b\"+# c\n\"open")).iterateAll.1[3]? =
      some ⟨.operator "=", ⟨1, 3⟩⟩ := by cbv
  refine ⟨hBlank, hToken, ?_⟩
  exact (run_ignores_layout hBlank (Or.inl ⟨_, List.mem_of_getElem? hToken, rfl⟩)).1

-- ----------------------------------------------------------------------------
-- Sequences
-- ----------------------------------------------------------------------------

section Sequences

variable {call : Caller} {env : FrameId}

theorem evalSequence_append (last : Value) (ns ms : List Node) :
    evalSequence call env last (ns ++ ms) =
      evalSequence call env last ns >>= fun v => evalSequence call env v ms := by
  induction ns generalizing last with
  | nil =>
    rw [List.nil_append, evalSequence, pure_bind]
  | cons n ns ih =>
    rw [List.cons_append, evalSequence, evalSequence, bind_assoc]
    simp only [ih]

theorem evalSequence_of_ne_nil {ns : List Node} (hSome : ns ≠ []) (v v' : Value) :
    evalSequence call env v ns = evalSequence call env v' ns := by
  cases ns with
  | nil => exact absurd rfl hSome
  | cons n ns => rw [evalSequence, evalSequence]

/-- Evaluating two programs as one is evaluating the first and then, unless it failed, the second.
An empty program has no value of its own. -/
theorem evalNode_program_append (es₁ es₂ : List Node) (w : World) :
    (evalNode call env (.program (es₁ ++ es₂))).runIn w =
      match (evalNode call env (.program es₁)).runIn w with
      | (.error e, w₁) => (.error e, w₁)
      | (.ok v, w₁) =>
        let second := (evalNode call env (.program es₂)).runIn w₁
        (if es₂.isEmpty then .ok v else second.1, second.2) := by
  simp only [evalNode, evalSequence_append, EvalM.runIn_bind]
  rcases (evalSequence call env .apuz es₁).runIn w with ⟨result, w₁⟩
  cases result with
  | error e => rfl
  | ok v =>
    cases es₂ with
    | nil => rfl
    | cons n ns =>
      show (evalSequence call env v (n :: ns)).runIn w₁ = _
      rw [evalSequence_of_ne_nil (List.cons_ne_nil n ns) v .apuz]
      rfl

end Sequences

/-- A text that is closed by a semicolon and a second text are parsed one behind the other. -/
theorem parse_newline {s₁ s₂ : String} {es₁ es₂ : List Node}
    (h₁ : parse s₁ = .ok (.program es₁)) (h₂ : parse s₂ = .ok (.program es₂))
    (hClosed : ∀ t ∈ (scan s₁).tokens.getLast?, t.kind = .punctuation ';') :
    parse (s₁ ++ "\n" ++ s₂) = .ok (.program (es₁ ++ es₂)) := by
  refine Scan.parse_sequence h₁ h₂ ?_ ?_
  · intro front t hTokens
    refine hClosed t ?_
    rw [hTokens, List.getLast?_concat]
    rfl
  · have hText : (s₁ ++ "\n" ++ s₂).toList = s₁.toList ++ '\n' :: s₂.toList := by
      simp [String.toList_append]
    rw [scan_reading, hText]
    exact reading_newline (Scan.finished_of_parse h₁) s₂.toList

/-- **Splitting a program into runs changes nothing.** If a text that has no tokens, or ends with a
semicolon, is a program, and a second text is one, then the two joined by a line feed are the
program of the expressions of both. Running it ends with the error of the first text, if it fails,
and otherwise as running the second in the world that the first leaves; if the second is empty, the
value is that of the first. -/
theorem run_newline {s₁ s₂ : String} {es₁ es₂ : List Node}
    (h₁ : parse s₁ = .ok (.program es₁)) (h₂ : parse s₂ = .ok (.program es₂))
    (hClosed : ∀ t ∈ (scan s₁).tokens.getLast?, t.kind = .punctuation ';') :
    parse (s₁ ++ "\n" ++ s₂) = .ok (.program (es₁ ++ es₂)) ∧
      ∀ (w : World) (config : Config) (env : FrameId),
        w.run config env (s₁ ++ "\n" ++ s₂) =
          match w.run config env s₁ with
          | (.error e, w₁) => (.error e, w₁)
          | (.ok v, w₁) =>
            let second := w₁.run config env s₂
            (if es₂.isEmpty then .ok v else second.1, second.2) := by
  have hJoined := parse_newline h₁ h₂ hClosed
  refine ⟨hJoined, ?_⟩
  intro w config env
  simp only [World.run, hJoined, h₁, h₂, World.evaluate, evaluate, evalNode_program_append]
  rcases (evalNode _ env (.program es₁)).runIn w with ⟨result, w₁⟩
  cases result with
  | error e => rfl
  | ok v => cases es₂ <;> rfl

/-- The first text ends in a comment without line feed, and the second begins with what would be
arguments if the semicolon did not stand between them. -/
theorem run_newline_comment :
    parse "n = λ(a) a; # b" = .ok (.program [.assignment (.var "n") (.lambda ["a"] (.var "a"))]) ∧
      parse "(n)(poz)" = .ok (.program [.call (.var "n") [.boolean true]]) ∧
      parse ("n = λ(a) a; # b" ++ "\n" ++ "(n)(poz)") =
        .ok (.program [.assignment (.var "n") (.lambda ["a"] (.var "a")),
          .call (.var "n") [.boolean true]]) := by
  have h₁ : parse "n = λ(a) a; # b" =
      .ok (.program [.assignment (.var "n") (.lambda ["a"] (.var "a"))]) := by cbv
  have h₂ : parse "(n)(poz)" = .ok (.program [.call (.var "n") [.boolean true]]) := by cbv
  have hLast : (scan "n = λ(a) a; # b").tokens.getLast? = some ⟨.punctuation ';', ⟨1, 10⟩⟩ := by cbv
  refine ⟨h₁, h₂, (run_newline h₁ h₂ ?_).1⟩
  rw [hLast]
  rintro t ⟨⟩
  rfl

end Zaban
