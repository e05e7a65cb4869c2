import Zaban.Proofs.Token.Decomposition

/-!
# Behind the last word

What is left of a text behind its last word is blank, or has a character in it
that opens no word, or a string that is not closed. `EndsWith` names the error
of each case; here stands what reading does there, and where it leaves the
cursor. Behind blank text and behind an open string everything is read. A
character that opens no word stays where it is, and is met again.

With the words of the text this says what a scan finds (`scan_eq`): the tokens
of the decomposition, and at the end the position behind the whole text or the
error of what is left.
-/

namespace Zaban

/-- How the tokens of a text end, by the failure that is met behind the last word. -/
def Ending.ofFailure (finish : Position) : Option LexError → Ending
  | none => .finished finish
  | some e => .failed e

theorem Ending.ofFailure_eq_finished {finish p : Position} {failure : Option LexError}
    (h : ofFailure finish failure = .finished p) : failure = none ∧ p = finish := by
  cases failure <;> cases h
  exact ⟨rfl, rfl⟩

theorem Ending.ofFailure_eq_failed {finish : Position} {failure : Option LexError} {e : LexError}
    (h : ofFailure finish failure = .failed e) : failure = some e := by
  cases failure <;> cases h
  rfl

section Texts

variable {before text past rest : List Char} {ts : List Token} {failure : Option LexError}

theorem EndsWith.scanFrom_eq (h : EndsWith past rest failure) (fuel : Nat) :
    scanFrom (fuel + 1) ⟨rest, .behind past⟩ =
      ⟨[], .ofFailure (.behind (past ++ rest)) failure⟩ := by
  rw [scanFrom]
  cases h with
  | blank hBlank => rw [readToken_blank hBlank, Ending.ofFailure]
  | unexpected hBlank hSpace hComment hNone =>
    rw [readToken_unexpected hBlank hSpace hComment hNone, Ending.ofFailure]
  | unterminated hBlank hOpen => rw [readToken_unterminated hBlank hOpen, Ending.ofFailure]

/-- A scan finds the tokens of the decomposition and the failure behind it. -/
theorem Decomposes.scanFrom_eq (h : Decomposes before text ts past rest)
    (hEnd : EndsWith past rest failure) {fuel : Nat} (hFuel : text.length < fuel) :
    scanFrom fuel ⟨text, .behind before⟩ =
      ⟨ts, .ofFailure (.behind (before ++ text)) failure⟩ := by
  induction h generalizing fuel with
  | done =>
    obtain ⟨fuel, rfl⟩ := Nat.exists_eq_add_one_of_ne_zero (Nat.ne_zero_of_lt hFuel)
    exact hEnd.scanFrom_eq fuel
  | @word before blank word text past rest kind ts hBlank hWord _ ih =>
    obtain ⟨fuel, rfl⟩ := Nat.exists_eq_add_one_of_ne_zero (Nat.ne_zero_of_lt hFuel)
    have hTaken := List.length_pos_iff.mpr hWord.ne_nil
    rw [List.length_append, List.length_append] at hFuel
    rw [scanFrom, readToken_word before hBlank hWord]
    dsimp only
    rw [ih hEnd (by omega : text.length < fuel), List.append_assoc before, List.append_assoc before]

/-- A scan of a text, from a decomposition of it and the failure behind its words. -/
theorem scan_eq {source : String} (h : Decomposes [] source.toList ts past rest)
    (hEnd : EndsWith past rest failure) :
    scan source = ⟨ts, .ofFailure (.behind source.toList) failure⟩ :=
  h.scanFrom_eq hEnd (Nat.lt_succ_self _)

/-- An iteration yields the tokens of the one decomposition of the text, and the failure behind
it. -/
theorem iterateAll_ends (source : String) : ∃ past rest,
    Decomposes [] source.toList (Lexer.ofText source).iterateAll.1 past rest ∧
      EndsWith past rest (Lexer.ofText source).iterateAll.2.1 := by
  obtain ⟨ts, past, rest, hText, hEnd⟩ := exists_decomposes [] source.toList
  have hFuel : source.toList.length < source.toList.length + 2 := by omega
  obtain ⟨failure, hEnds, rfl, rfl⟩ := drain_eq hText hEnd hFuel
  exact ⟨past, rest, hText, hEnds⟩

/-- A scan finds what an iteration yields, and where the text ends if the iteration ends quietly. -/
theorem scan_eq_iterateAll (source : String) :
    scan source = ⟨(Lexer.ofText source).iterateAll.1,
      .ofFailure (.behind source.toList) (Lexer.ofText source).iterateAll.2.1⟩ := by
  obtain ⟨past, rest, hText, hEnd⟩ := iterateAll_ends source
  exact scan_eq hText hEnd

end Texts

end Zaban
