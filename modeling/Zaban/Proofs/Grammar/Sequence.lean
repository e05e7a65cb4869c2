import Zaban.Proofs.Grammar.Placeless

/-!
# Programs one behind another

A program that ends with a semicolon says nothing about what stands behind it,
and takes nothing from it. Its last expression was closed by the semicolon, and
a reader that stops in front of a token does so whatever follows
(`foreseeing_readers`); so a second program may follow, and the expressions of
both are read in turn (`Scan.parse_sequence`). That the first program ends with
a semicolon cannot be left out: an expression never ends with one
(`Expression.unclosed`), and would go on into the second program.
-/

namespace Zaban

open Reader Grammar

-- ----------------------------------------------------------------------------
-- Last tokens
-- ----------------------------------------------------------------------------

/-- The tokens end with a semicolon, if there are any. -/
def Closed (ts : List Token) : Prop :=
  ∀ front t, ts = front ++ [t] → t.kind = .punctuation ';'

/-- The tokens end with another token than a semicolon. -/
def Unclosed (ts : List Token) : Prop :=
  ∃ front t, ts = front ++ [t] ∧ t.kind ≠ .punctuation ';'

theorem Closed.drop {before rest : List Token} (h : Closed (before ++ rest)) : Closed rest := by
  rintro front t rfl
  exact h (before ++ front) t (List.append_assoc before front [t]).symm

theorem Unclosed.not_closed {ts : List Token} (h : Unclosed ts) : ¬ Closed ts := by
  obtain ⟨front, t, hTs, hOther⟩ := h
  exact fun hClosed => hOther (hClosed front t hTs)

theorem Unclosed.behind {ts : List Token} (before : List Token) (h : Unclosed ts) :
    Unclosed (before ++ ts) := by
  obtain ⟨front, t, rfl, hOther⟩ := h
  exact ⟨before ++ front, t, (List.append_assoc before front [t]).symm, hOther⟩

theorem unclosed_mark {mark : Char} {c : Token} (before : List Token)
    (hKind : c.kind = .punctuation mark) (hOther : mark ≠ ';') : Unclosed (before ++ [c]) := by
  refine ⟨before, c, rfl, ?_⟩
  rw [hKind]
  exact fun hSame => hOther (TokenKind.punctuation.inj hSame)

/-- Operands behind operators end as the last of them does. -/
theorem Grammar.Tail.unclosed {operand : List Token → Node → Prop} {ts us : List Token}
    {xs : List (ChainOp × Node)} (h : Tail operand us xs)
    (hOperand : ∀ {vs n}, operand vs n → Unclosed vs) (hFirst : Unclosed ts) :
    Unclosed (ts ++ us) := by
  induction h generalizing ts with
  | nil =>
    rw [List.append_nil]
    exact hFirst
  | @cons t op vs ws n rest _ hNext _ ih =>
    have hLater := (hOperand hNext).behind (ts ++ [t])
    simpa only [List.append_assoc, List.cons_append, List.nil_append] using ih hLater

/-- **The last token of an expression is not a semicolon.** -/
theorem Grammar.Expression.unclosed {ts : List Token} {n : Node} (h : Expression ts n) :
    Unclosed ts := by
  refine derives_induction (E := fun ts _ => Unclosed ts) (O := fun ts _ => Unclosed ts)
    (P := fun ts _ => Unclosed ts) ?_ h
  exact {
    chain := fun hFirst hRest _ => hRest.unclosed (fun hOperand => hOperand.2) hFirst.2
    primary := fun hPrimary => hPrimary.2
    call := by
      intro ts us o c callee args _ _ _ hClose
      have hEnd := unclosed_mark (o :: us) hClose (by decide)
      exact hEnd.behind ts
    leaf := by
      intro t n hLeaf
      refine ⟨[], t, rfl, ?_⟩
      intro hSemicolon
      rw [Token.leaf?, hSemicolon] at hLeaf
      cases hLeaf
    group := fun {ts o c n} _ _ hClose => unclosed_mark (o :: ts) hClose (by decide)
    block := fun {ts o c body} _ _ hClose => unclosed_mark (o :: ts) hClose (by decide)
    conditional := by
      intro k ts ws us vs test yes no _ _ _ hYes hNo
      have hBranches : Unclosed (us ++ vs) := by
        cases hNo with
        | absent =>
          rw [List.append_nil]
          exact hYes.2
        | @present t vs n _ hBranch => exact (hBranch.2.behind [t]).behind us
      exact ((hBranches.behind ws).behind ts).behind [k]
    function := by
      intro k o c ts us params body _ _ _ _ hBody
      exact ((hBody.2.behind [c]).behind ts).behind [k, o] }

-- ----------------------------------------------------------------------------
-- Reading on
-- ----------------------------------------------------------------------------

section Reading

variable {fin fin' : Ending} {fuel : Nat} {ts ts' us : List Token} {xs ys : List Node}

/-- What reading a program comes to: nothing is left, or an expression that ends the text, or an
expression, a semicolon and a program. -/
theorem readProgram_cases (h : readProgram fin (fuel + 1) ts = .ok (xs, us)) :
    (ts = [] ∧ xs = [] ∧ fin.fault? = none) ∨
    (∃ x, readExpression fin fuel ts = .ok (x, []) ∧ xs = [x] ∧ fin.fault? = none) ∨
    ∃ x t vs ys, readExpression fin fuel ts = .ok (x, t :: vs) ∧ t.kind = .punctuation ';' ∧
      readProgram fin fuel vs = .ok (ys, us) ∧ xs = x :: ys := by
  cases ts with
  | nil =>
    rw [readProgram, close_eq_ok] at h
    obtain ⟨⟨p, rfl⟩, rfl, -⟩ := h
    exact Or.inl ⟨rfl, rfl, rfl⟩
  | cons t ts =>
    simp only [readProgram, bind_eq_ok, Prod.exists] at h
    obtain ⟨x, vs, hRead, h⟩ := h
    refine Or.inr ?_
    split at h
    · obtain ⟨⟨p, rfl⟩, rfl, -⟩ := close_eq_ok.mp h
      exact Or.inl ⟨x, hRead, rfl, rfl⟩
    · simp only [bind_eq_ok, pure_eq_ok, takeMark_eq_ok, Prod.exists] at h
      obtain ⟨_, ws, ⟨s, hMark, hKind⟩, ys, zs, hMore, hPair⟩ := h
      obtain ⟨rfl, rfl⟩ := Prod.mk.inj hPair
      rw [hMark] at hRead
      exact Or.inr ⟨x, s, ws, ys, hRead, hKind, hMore, rfl⟩

/-- A program is read to the end of its text. -/
theorem readProgram_finished (h : readProgram fin fuel ts = .ok (xs, us)) : fin.fault? = none := by
  induction fuel generalizing ts xs with
  | zero => cases h
  | succ fuel ih =>
    rcases readProgram_cases h with ⟨-, -, hEnd⟩ | ⟨x, -, -, hEnd⟩ | ⟨x, t, vs, ys, -, -, hMore, -⟩
    · exact hEnd
    · exact hEnd
    · exact ih hMore

/-- An expression that ends in front of a semicolon stands first in a program. -/
theorem Yields.program {x : Node} {t : Token} {vs : List Token} (hSome : ts ≠ [])
    (hFirst : Yields (.ok (x, t :: vs)) (readExpression fin fuel ts))
    (hMark : t.kind = .punctuation ';') (hMore : Yields (.ok (xs, us)) (readProgram fin fuel vs)) :
    Yields (.ok (x :: xs, us)) (readProgram fin (fuel + 1) ts) := by
  obtain ⟨u, ws, rfl⟩ := List.exists_cons_of_ne_nil hSome
  rw [readProgram_eq, look, Move.go]
  refine hFirst.andThen ?_
  rw [look, programMove, if_pos (Token.isMark_iff.mpr hMark), Move.go]
  exact hMore.andThen (.refl _)

/-- **Behind a closed program another is read.** The induction is on the fuel of the first reading;
the second may have any. -/
theorem readProgram_sequence (h : readProgram fin fuel ts = .ok (xs, [])) (hClosed : Closed ts)
    (hKinds : SameKinds ts' ts)
    (hRest : ∀ fuel', Yields (.ok (ys, [])) (readProgram fin' fuel' us)) (fuel' : Nat) :
    Yields (.ok (xs ++ ys, [])) (readProgram fin' fuel' (ts' ++ us)) := by
  induction fuel generalizing ts ts' xs fuel' with
  | zero => cases h
  | succ fuel ih =>
    rcases readProgram_cases h with
      ⟨rfl, rfl, -⟩ | ⟨x, hRead, -⟩ | ⟨x, t, vs, zs, hRead, hMark, hMore, rfl⟩
    · obtain rfl := hKinds.eq_nil
      exact hRest fuel'
    · -- the expression would end with the semicolon
      obtain ⟨taken, hTs, hExpression⟩ := (sound_readers fin fuel).item hRead
      rw [hTs, List.append_nil] at hClosed
      exact absurd hClosed hExpression.unclosed.not_closed
    · cases fuel' with
      | zero => exact Or.inr rfl
      | succ fuel' =>
        have hPhrase : readExpression fin fuel ts = .ok (x, [] ++ t :: vs) := hRead
        obtain ⟨before, rfl, hAgain⟩ :=
          (foreseeing_readers fin fin' fuel fuel').expression.phrase hPhrase
        obtain ⟨before', behind', rfl, hBefore, hBehind⟩ := hKinds.split
        obtain ⟨t', vs', rfl, hKind, hVs⟩ := hBehind.uncons
        have hFirst := hAgain before' [] t' (vs' ++ us) hBefore rfl hKind
        have hBehindMark : Closed ([t] ++ vs) := hClosed.drop
        have hSecond := ih hMore hBehindMark.drop hVs fuel'
        rw [List.append_assoc]
        exact hFirst.program (by simp) (hKind.trans hMark) hSecond

/-- What is like a phrase that ends the tokens is that phrase. -/
theorem EndsAlike.yields {α : Type} {a : α} {o : Outcome (Phrase α)}
    (h : EndsAlike (.ok (a, [])) o) :
    Yields (.ok (a, [])) o := by
  cases h with
  | phrase a hRest => exact Or.inl (by rw [SameKinds.eq_nil hRest.symm])
  | cutRight => exact Or.inr rfl

theorem Scan.parse_eq_ok_iff {s : Scan} : s.parse = .ok (.program xs) ↔
    readProgram s.ending (parseFuel s.tokens.length) s.tokens = .ok (xs, []) := by
  unfold Scan.parse
  split
  · rename_i body rest hRead
    obtain ⟨rfl, -⟩ := readProgram_sound hRead
    simp [hRead]
  · rename_i hRead
    simp [hRead]
  · rename_i hRead
    simp [hRead]

/-- A text that is parsed has no fault. -/
theorem Scan.finished_of_parse {s : Scan} (h : s.parse = .ok (.program xs)) :
    s.ending.fault? = none :=
  readProgram_finished (Scan.parse_eq_ok_iff.mp h)

/-- **A program behind a closed program**: a text whose tokens are those of two programs, the first
of which is closed, is the program of the expressions of both. -/
theorem Scan.parse_sequence {s s₁ s₂ : Scan} {xs ys : List Node}
    (h₁ : s₁.parse = .ok (.program xs)) (h₂ : s₂.parse = .ok (.program ys))
    (hClosed : Closed s₁.tokens) (hReading : s.reading = s₂.reading.behind s₁.reading.1) :
    s.parse = .ok (.program (xs ++ ys)) := by
  have hRead₁ := Scan.parse_eq_ok_iff.mp h₁
  have hRead₂ := Scan.parse_eq_ok_iff.mp h₂
  obtain ⟨hKinds, hFault⟩ := Prod.mk.inj hReading
  obtain ⟨ts, us, hTokens, hTs, hUs⟩ := List.map_eq_append_iff.mp hKinds
  have hRest : ∀ fuel, Yields (.ok (ys, [])) (readProgram s.ending fuel us) := by
    intro fuel
    have hAlike := readProgram_matched hFault.symm (parseFuel s₂.tokens.length) fuel s₂.tokens us
      hUs.symm
    rw [hRead₂] at hAlike
    exact hAlike.yields
  have hYields := readProgram_sequence hRead₁ hClosed hTs hRest (parseFuel s.tokens.length)
  rw [← hTokens] at hYields
  rcases hYields with hRead | hRead
  · exact Scan.parse_eq_ok_iff.mpr hRead
  · exact absurd hRead s.read_ne_outOfFuel

end Reading

end Zaban
