import Zaban.Proofs.Token.Decomposition

/-!
# Tokens stand one behind another

Every token begins where blank text behind the token before it ends, and takes
at least one character. The positions of the tokens of a text therefore
increase strictly, line by line and from left to right (`scan_increases`), and
no token stands in a text twice.
-/

namespace Zaban

namespace Position

/-- The place `p` comes before `q`. -/
def Before (p q : Position) : Prop :=
  p.line < q.line ∨ p.line = q.line ∧ p.column < q.column

theorem Before.trans {p q r : Position} (h : p.Before q) (h' : q.Before r) : p.Before r := by
  unfold Before at *
  omega

theorem before_irrefl (p : Position) : ¬ p.Before p := by
  unfold Before
  omega

theorem before_advance (p : Position) (c : Char) : p.Before (p.advance c) := by
  unfold advance
  split
  · exact Or.inl (Nat.lt_succ_self p.line)
  · exact Or.inr ⟨rfl, Nat.lt_succ_self p.column⟩

/-- Reading moves forward, if it takes anything. -/
theorem before_after (p : Position) {cs : List Char} (h : cs ≠ []) : p.Before (p.after cs) := by
  induction cs generalizing p with
  | nil => exact absurd rfl h
  | cons c cs ih =>
    rw [after_cons]
    have hStep := p.before_advance c
    by_cases hLast : cs = []
    · rw [hLast, after_nil]
      exact hStep
    · exact hStep.trans (ih (p.advance c) hLast)

end Position

/-- A token ends behind the place where reading began, and begins before it ends. -/
theorem readToken_before {c c' : Cursor} {t : Token} (h : c.readToken = (.ok (some t), c')) :
    t.position.Before c'.position ∧ (t.position = c.position ∨ c.position.Before t.position) := by
  simp only [Cursor.readToken] at h
  split at h
  · cases h
  · rename_i x xs _
    split at h
    · rename_i kind hKind
      obtain ⟨hToken, rfl⟩ := Prod.mk.inj h
      obtain rfl := Option.some.inj (Except.ok.inj hToken)
      have hTaken : (Lexeme.read x xs).taken ≠ [] := (longest_iff_read.mpr ⟨hKind, rfl⟩).ne_nil
      refine ⟨Position.before_after _ hTaken, ?_⟩
      by_cases hBlank : (splitTrivia false c.rest).1 = []
      · refine Or.inl ?_
        show c.position.after (splitTrivia false c.rest).1 = c.position
        rw [hBlank, Position.after_nil]
      · exact Or.inr (Position.before_after _ hBlank)
    · cases h

theorem scanFrom_increases (fuel : Nat) (c : Cursor) :
    (scanFrom fuel c).tokens.Pairwise (fun t u => t.position.Before u.position) ∧
      ∀ t ∈ (scanFrom fuel c).tokens, t.position = c.position ∨ c.position.Before t.position := by
  induction fuel generalizing c with
  | zero => exact ⟨.nil, by simp [scanFrom]⟩
  | succ fuel ih =>
    rw [scanFrom]
    split
    · rename_i t c' hRead
      obtain ⟨hEnd, hStart⟩ := readToken_before hRead
      obtain ⟨hSorted, hBehind⟩ := ih c'
      have hFirst : ∀ u ∈ (scanFrom fuel c').tokens, t.position.Before u.position := by
        intro u hu
        rcases hBehind u hu with hSame | hLater
        · rw [hSame]
          exact hEnd
        · exact hEnd.trans hLater
      refine ⟨List.pairwise_cons.mpr ⟨hFirst, hSorted⟩, ?_⟩
      intro u hu
      rcases List.mem_cons.mp hu with rfl | hu
      · exact hStart
      · have hLater := hFirst u hu
        rcases hStart with hSame | hBefore
        · rw [hSame] at hLater
          exact Or.inr hLater
        · exact Or.inr (hBefore.trans hLater)
    · exact ⟨.nil, by simp⟩
    · exact ⟨.nil, by simp⟩

/-- **The tokens of a text stand one behind another.** -/
theorem scan_increases (source : String) :
    (scan source).tokens.Pairwise (fun t u => t.position.Before u.position) :=
  (scanFrom_increases _ _).1

theorem scan_nodup (source : String) : (scan source).tokens.Nodup := by
  refine (scan_increases source).imp ?_
  rintro t u hBefore rfl
  exact t.position.before_irrefl hBefore

end Zaban
