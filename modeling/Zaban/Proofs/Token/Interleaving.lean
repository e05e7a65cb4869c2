import Zaban.Proofs.Token.Endings

/-!
# Looking ahead and reading on

A reader of tokens can be asked in four ways: for the next token, which then
stays the next one or is taken, for whether there is one, and for the next item
of an iteration. However these are mixed, the reader gives the tokens of one
iteration over the text, in order and each once, and looking ahead shows what is
taken next (`interleaving_sees_one_stream`).

What a reader has still to give is its **outlook**: tokens, and a failure behind
them if the text ends with one. A cursor has an outlook by itself
(`Cursor.Streams`); a reader that holds a token back has that token in front of
it (`Lexer.Presents`). Each way to ask takes one outlook to another
(`Lexer.Presents.ask`), and of these steps every use of a reader consists
(`Usage.Follows.ask`, `follows_of_mem_serve`).

The two failures part company once they are met. A character that opens no word
is still there, and fails again; an open string is read to the end of the text,
and nothing is left (`LexError.again`).
-/

namespace Zaban

-- ----------------------------------------------------------------------------
-- Asking a reader
-- ----------------------------------------------------------------------------

/-- The ways to ask a reader of tokens for what comes next. -/
inductive Ask where
  | peek
  | atEnd
  | next
  | iterate
deriving DecidableEq

/-- What a reader of tokens may reply. -/
inductive Reply where
  | token (t : Token)
  /-- There is a token, whichever it is. -/
  | more
  | ended
  | failed (e : LexError)

namespace Reply

def ofToken : Except LexError (Option Token) → Reply
  | .ok (some t) => .token t
  | .ok none => .ended
  | .error e => .failed e

def ofFlag : Except LexError Bool → Reply
  | .ok false => .more
  | .ok true => .ended
  | .error e => .failed e

def ofItem : Option (Except LexError Token) → Reply
  | some (.ok t) => .token t
  | some (.error e) => .failed e
  | none => .ended

end Reply

/-- What a reply looks like to one who asks in this way: who asks for the end does not see the
token. -/
def Ask.view : Ask → Reply → Reply
  | .atEnd, .token _ => .more
  | _, r => r

def Lexer.ask (l : Lexer) : Ask → Reply × Lexer
  | .peek => (.ofToken l.peek.1, l.peek.2)
  | .atEnd => (.ofFlag l.atEnd.1, l.atEnd.2)
  | .next => (.ofToken l.next.1, l.next.2)
  | .iterate => (.ofItem l.iterate.1, l.iterate.2)

/-- A reader of tokens, with what it was asked so far and what it replied. -/
structure Usage where
  log : List (Ask × Reply)
  lexer : Lexer

namespace Usage

def ask (u : Usage) (a : Ask) : Usage :=
  ⟨u.log ++ [(a, (u.lexer.ask a).1)], (u.lexer.ask a).2⟩

/-- No reply was a failure. -/
def Calm (u : Usage) : Prop :=
  ∀ a e, (a, Reply.failed e) ∉ u.log

end Usage

/-- The token that is handed out with a reply. -/
def handedWith : Ask × Reply → Option Token
  | (.next, .token t) => some t
  | (.iterate, .token t) => some t
  | _ => none

/-- The tokens that the reader has handed out. -/
def Usage.handed (u : Usage) : List Token :=
  u.log.filterMap handedWith

/-- A request to one of several readers, which are numbered as they come into being. -/
inductive Request where
  | ask (reader : Nat) (a : Ask)
  | clone (reader : Nat)

/-- A clone is a reader of its own, with the past of the one it is a clone of. -/
def Request.serve (readers : List Usage) : Request → List Usage
  | .ask i a => readers.modify i (Usage.ask · a)
  | .clone i => readers ++ readers[i]?.toList

/-- The readers after some requests, where the first reader is at the start of the text. -/
def serve (source : String) (requests : List Request) : List Usage :=
  requests.foldl Request.serve [⟨[], .ofText source⟩]

-- ----------------------------------------------------------------------------
-- Outlooks
-- ----------------------------------------------------------------------------

/-- What is left of a failure that was met. -/
def LexError.again (e : LexError) : Option LexError :=
  match e.fault with
  | .unexpectedCharacter _ => some e
  | _ => none

theorem LexError.again_eq_some {e e' : LexError} (h : e.again = some e') : e' = e := by
  unfold again at h
  split at h
  · exact (Option.some.inj h).symm
  · cases h

/-- What is still to be given: tokens, and the failure behind them if there is one. -/
structure Outlook where
  tokens : List Token
  failure : Option LexError

namespace Outlook

def result : Outlook → Except LexError (Option Token)
  | ⟨t :: _, _⟩ => .ok (some t)
  | ⟨[], none⟩ => .ok none
  | ⟨[], some e⟩ => .error e

/-- The outlook once what comes next was looked at. -/
def seen : Outlook → Outlook
  | ⟨t :: ts, failure⟩ => ⟨t :: ts, failure⟩
  | ⟨[], failure⟩ => ⟨[], failure.bind LexError.again⟩

/-- The outlook once what comes next was taken. -/
def taken : Outlook → Outlook
  | ⟨_ :: ts, failure⟩ => ⟨ts, failure⟩
  | ⟨[], failure⟩ => ⟨[], failure.bind LexError.again⟩

def after (o : Outlook) : Ask → Outlook
  | .peek | .atEnd => o.seen
  | .next | .iterate => o.taken

def reply (o : Outlook) : Reply :=
  .ofToken o.result

end Outlook

/-- Reading on from the cursor gives the outlook. Behind the last token the cursor is left at the
end of the text, or in front of a character that fails whenever it is met. -/
inductive Cursor.Streams : Cursor → Outlook → Prop where
  | token {c c' : Cursor} {t : Token} {ts : List Token} {failure : Option LexError}
      (hRead : c.readToken = (.ok (some t), c')) (hRest : Streams c' ⟨ts, failure⟩) :
      Streams c ⟨t :: ts, failure⟩
  | ended {c c' : Cursor} (hRead : c.readToken = (.ok none, c')) (hEmpty : c'.rest = []) :
      Streams c ⟨[], none⟩
  | stuck {c c' : Cursor} {e : LexError} (hAgain : e.again = some e)
      (hRead : c.readToken = (.error e, c')) (hStuck : c'.readToken = (.error e, c')) :
      Streams c ⟨[], some e⟩
  | cut {c c' : Cursor} {e : LexError} (hAgain : e.again = none)
      (hRead : c.readToken = (.error e, c')) (hEmpty : c'.rest = []) :
      Streams c ⟨[], some e⟩

theorem Cursor.streams_of_rest {c : Cursor} (h : c.rest = []) : c.Streams ⟨[], none⟩ := by
  obtain ⟨rest, p⟩ := c
  obtain rfl : rest = [] := h
  exact .ended rfl rfl

/-- **What one read does to the outlook.** -/
theorem Cursor.Streams.readToken_eq {c : Cursor} {o : Outlook} (h : c.Streams o) :
    ∃ c', c.readToken = (o.result, c') ∧ c'.Streams o.taken := by
  cases h with
  | token hRead hRest => exact ⟨_, hRead, hRest⟩
  | ended hRead hEmpty => exact ⟨_, hRead, streams_of_rest hEmpty⟩
  | stuck hAgain hRead hStuck =>
    refine ⟨_, hRead, ?_⟩
    rw [Outlook.taken, Option.bind_some, hAgain]
    exact .stuck hAgain hStuck hStuck
  | cut hAgain hRead hEmpty =>
    refine ⟨_, hRead, ?_⟩
    rw [Outlook.taken, Option.bind_some, hAgain]
    exact streams_of_rest hEmpty

theorem EndsWith.streams {past rest : List Char} {failure : Option LexError}
    (h : EndsWith past rest failure) : Cursor.Streams ⟨rest, .behind past⟩ ⟨[], failure⟩ := by
  cases h with
  | blank hBlank => exact .ended (readToken_blank hBlank past) rfl
  | @unexpected blank cs c hBlank hSpace hComment hNone =>
    -- read again, the character has no blank text in front of it
    have hStuck := @readToken_unexpected [] (past ++ blank) cs c .nil hSpace hComment hNone
    rw [List.nil_append, List.append_nil] at hStuck
    exact .stuck rfl (readToken_unexpected hBlank hSpace hComment hNone) hStuck
  | unterminated hBlank hOpen => exact .cut rfl (readToken_unterminated hBlank hOpen) rfl

theorem Decomposes.streams {before text past rest : List Char} {ts : List Token}
    {failure : Option LexError} (h : Decomposes before text ts past rest)
    (hEnd : EndsWith past rest failure) :
    Cursor.Streams ⟨text, .behind before⟩ ⟨ts, failure⟩ := by
  induction h with
  | done => exact hEnd.streams
  | word hBlank hWord _ ih => exact .token (readToken_word _ hBlank hWord) (ih hEnd)

-- ----------------------------------------------------------------------------
-- One step of a reader
-- ----------------------------------------------------------------------------

/-- The reader has the outlook still to give, a token that it holds back included. -/
inductive Lexer.Presents (l : Lexer) : Outlook → Prop where
  | fresh {o : Outlook} (hAhead : l.ahead = none) (hRest : l.cursor.Streams o) : Presents l o
  | held {t : Token} {ts : List Token} {failure : Option LexError} (hAhead : l.ahead = some t)
      (hRest : l.cursor.Streams ⟨ts, failure⟩) : Presents l ⟨t :: ts, failure⟩

namespace Lexer.Presents

variable {l : Lexer} {o : Outlook}

theorem peek (h : l.Presents o) :
    ∃ l', l.peek = (o.result, l') ∧ l'.Presents o.seen ∧ l'.stopped = l.stopped := by
  cases h with
  | held hAhead hRest =>
    refine ⟨l, ?_, .held hAhead hRest, rfl⟩
    simp only [Lexer.peek, hAhead, Outlook.result]
  | fresh hAhead hRest =>
    obtain ⟨c, hRead, hTaken⟩ := hRest.readToken_eq
    obtain ⟨ts, failure⟩ := o
    cases ts with
    | cons t ts =>
      refine ⟨{ l with cursor := c, ahead := some t }, ?_, .held rfl hTaken, rfl⟩
      simp only [Lexer.peek, hAhead, hRead, Outlook.result]
    | nil =>
      refine ⟨{ l with cursor := c }, ?_, .fresh hAhead hTaken, rfl⟩
      cases failure <;> simp only [Lexer.peek, hAhead, hRead, Outlook.result]

theorem next (h : l.Presents o) :
    ∃ l', l.next = (o.result, l') ∧ l'.Presents o.taken ∧ l'.stopped = l.stopped := by
  cases h with
  | held hAhead hRest =>
    refine ⟨{ l with ahead := none }, ?_, .fresh rfl hRest, rfl⟩
    simp only [Lexer.next, hAhead, Outlook.result]
  | fresh hAhead hRest =>
    obtain ⟨c, hRead, hTaken⟩ := hRest.readToken_eq
    refine ⟨{ l with cursor := c }, ?_, .fresh hAhead hTaken, rfl⟩
    simp only [Lexer.next, hAhead, hRead]

theorem stop (h : l.Presents o) : { l with stopped := true }.Presents o := by
  cases h with
  | fresh hAhead hRest => exact .fresh hAhead hRest
  | held hAhead hRest => exact .held hAhead hRest

theorem iterate (h : l.Presents o) (hGoes : l.stopped = false) :
    ∃ l', l.ask .iterate = (o.reply, l') ∧ l'.Presents o.taken ∧
      (l'.stopped = true ↔ ∃ e, o.reply = .failed e) := by
  obtain ⟨l', hNext, hTaken, hSame⟩ := h.next
  rw [hGoes] at hSame
  simp only [Lexer.ask, Lexer.iterate, Outlook.reply, hGoes, hNext, Bool.false_eq_true, if_false]
  cases o.result with
  | error e =>
    exact ⟨{ l' with stopped := true }, rfl, hTaken.stop, by simp [Reply.ofToken]⟩
  | ok t? =>
    cases t? with
    | none => exact ⟨l', rfl, hTaken, by simp [hSame, Reply.ofToken]⟩
    | some t => exact ⟨l', rfl, hTaken, by simp [hSame, Reply.ofToken]⟩

/-- **One step of a reader.** A reader whose iteration was not ended by an error replies with what
comes next in its outlook, and changes the outlook as the way to ask says. -/
theorem ask (h : l.Presents o) {a : Ask} (hGoes : a = .iterate → l.stopped = false) :
    ∃ l', l.ask a = (a.view o.reply, l') ∧ l'.Presents (o.after a) ∧
      (l'.stopped = true ↔ l.stopped = true ∨ a = .iterate ∧ ∃ e, o.reply = .failed e) := by
  cases a with
  | peek =>
    obtain ⟨l', hPeek, hSeen, hSame⟩ := h.peek
    refine ⟨l', ?_, hSeen, by simp [hSame]⟩
    rw [Lexer.ask, hPeek]
    rfl
  | atEnd =>
    obtain ⟨l', hPeek, hSeen, hSame⟩ := h.peek
    refine ⟨l', ?_, hSeen, by simp [hSame]⟩
    rw [Lexer.ask, Lexer.atEnd, hPeek, Outlook.reply]
    rcases o.result with e | none | t <;> rfl
  | next =>
    obtain ⟨l', hNext, hTaken, hSame⟩ := h.next
    refine ⟨l', ?_, hTaken, by simp [hSame]⟩
    rw [Lexer.ask, hNext]
    rfl
  | iterate =>
    obtain ⟨l', hReply, hTaken, hStopped⟩ := h.iterate (hGoes rfl)
    exact ⟨l', hReply, hTaken, by simp [hStopped, hGoes rfl]⟩

end Lexer.Presents

/-- An iteration that an error ended gives nothing. -/
theorem Lexer.ask_iterate_stopped {l : Lexer} (h : l.stopped = true) :
    l.ask .iterate = (.ended, l) := by
  rw [Lexer.ask, Lexer.iterate, if_pos h]
  rfl

namespace Outlook

variable {o : Outlook} {a : Ask} {e : LexError}

theorem reply_eq_failed (h : o.reply = .failed e) : o = ⟨[], some e⟩ := by
  obtain ⟨_ | ⟨t, ts⟩, _ | e'⟩ := o <;> cases h
  rfl

theorem reply_cases (o : Outlook) : (∃ t, o.reply = .token t) ∨
    (o.tokens = [] ∧ o.failure = none) ∨ ∃ e, o.reply = .failed e := by
  obtain ⟨_ | ⟨t, ts⟩, _ | e⟩ := o
  · exact Or.inr (Or.inl ⟨rfl, rfl⟩)
  · exact Or.inr (Or.inr ⟨e, rfl⟩)
  · exact Or.inl ⟨t, rfl⟩
  · exact Or.inl ⟨t, rfl⟩

/-- A token is handed out, or is still to be given. -/
theorem handed_append_tokens (o : Outlook) (a : Ask) :
    (handedWith (a, a.view o.reply)).toList ++ (o.after a).tokens = o.tokens := by
  obtain ⟨_ | ⟨t, ts⟩, _ | e⟩ := o <;> cases a <;> rfl

theorem after_failure (h : ∀ e, o.reply ≠ .failed e) : (o.after a).failure = o.failure := by
  obtain ⟨_ | ⟨t, ts⟩, _ | e⟩ := o
  · cases a <;> rfl
  · exact absurd rfl (h e)
  · cases a <;> rfl
  · cases a <;> rfl

theorem after_empty (hTokens : o.tokens = []) (hFailure : o.failure = none) (a : Ask) :
    (o.after a).tokens = [] ∧ (o.after a).failure = none := by
  obtain ⟨tokens, failure⟩ := o
  obtain rfl : tokens = [] := hTokens
  obtain rfl : failure = none := hFailure
  cases a <;> exact ⟨rfl, rfl⟩

theorem after_failed (e : LexError) (a : Ask) :
    (⟨[], some e⟩ : Outlook).after a = ⟨[], e.again⟩ := by
  cases a <;> rfl

end Outlook

theorem Ask.view_eq_failed_iff {a : Ask} {r : Reply} {e : LexError} :
    a.view r = .failed e ↔ r = .failed e := by
  cases a <;> cases r <;> simp [Ask.view]

-- ----------------------------------------------------------------------------
-- The use of a reader
-- ----------------------------------------------------------------------------

namespace Usage

variable {u : Usage} {stream o : Outlook}

theorem handed_ask (u : Usage) (a : Ask) :
    (u.ask a).handed = u.handed ++ (handedWith (a, (u.lexer.ask a).1)).toList := by
  rw [handed, handed, ask, List.filterMap_append]
  cases hHanded : handedWith (a, (u.lexer.ask a).1) <;> simp [hHanded]

theorem calm_ask_iff {a : Ask} :
    (u.ask a).Calm ↔ u.Calm ∧ ∀ e, (u.lexer.ask a).1 ≠ .failed e := by
  constructor
  · intro hCalm
    refine ⟨fun b e hMem => hCalm b e (List.mem_append_left _ hMem), fun e hFailed => ?_⟩
    exact hCalm a e (List.mem_append_right _ (by rw [hFailed]; exact List.mem_singleton_self _))
  · rintro ⟨hCalm, hReply⟩ b e hMem
    rcases List.mem_append.mp hMem with hMem | hMem
    · exact hCalm b e hMem
    · obtain ⟨rfl, hFailed⟩ := Prod.mk.inj (List.mem_singleton.mp hMem)
      exact hReply e hFailed.symm

/-- The reader has handed out the front of the stream and has the rest still to give, with the
failure behind it as it was before it was met or as it is afterwards. An iteration that once gave no
token has nothing more to give. -/
structure Follows (u : Usage) (stream o : Outlook) : Prop where
  presents : u.lexer.Presents o
  handed   : u.handed ++ o.tokens = stream.tokens
  calm     : u.Calm → o.failure = stream.failure ∧ u.lexer.stopped = false
  met      : ¬ u.Calm → o.tokens = [] ∧ o.failure = stream.failure.bind LexError.again
  fused    : ∀ r, (.iterate, r) ∈ u.log → (∀ t, r ≠ .token t) →
    u.lexer.stopped = true ∨ o.tokens = [] ∧ o.failure = none

/-- A reader whose iteration was ended by an error stays as it is when it is asked to iterate. -/
theorem Follows.ask_stopped (h : u.Follows stream o) (hStopped : u.lexer.stopped = true) :
    (u.ask .iterate).Follows stream o := by
  have hAsk := Lexer.ask_iterate_stopped hStopped
  have hMet : ¬ u.Calm := by
    intro hCalm
    rw [(h.calm hCalm).2] at hStopped
    cases hStopped
  have hMet' : ¬ (u.ask .iterate).Calm := fun hCalm => hMet (calm_ask_iff.mp hCalm).1
  have hLexer : (u.ask .iterate).lexer = u.lexer := by rw [ask, hAsk]
  refine ⟨?_, ?_, fun hCalm => absurd hCalm hMet', fun _ => h.met hMet, fun _ _ _ => Or.inl ?_⟩
  · rw [hLexer]
    exact h.presents
  · rw [handed_ask, hAsk]
    simpa [handedWith] using h.handed
  · rw [hLexer]
    exact hStopped

theorem Follows.failure_eq (h : u.Follows stream o) :
    o.failure = stream.failure ∨ o.failure = stream.failure.bind LexError.again := by
  by_cases hCalm : u.Calm
  · exact Or.inl (h.calm hCalm).1
  · exact Or.inr (h.met hCalm).2

/-- Meeting the failure leaves what `LexError.again` says, the first time and later. -/
theorem Follows.again_eq {e : LexError} (h : u.Follows stream ⟨[], some e⟩) :
    e.again = stream.failure.bind LexError.again := by
  rcases h.failure_eq with hFailure | hFailure
  · rw [← hFailure]
    rfl
  · obtain ⟨e', -, hAgain⟩ := Option.bind_eq_some_iff.mp hFailure.symm
    obtain rfl := LexError.again_eq_some hAgain
    rw [hAgain, ← hFailure]

/-- **One step of the use of a reader.** -/
theorem Follows.ask (h : u.Follows stream o) (a : Ask) : ∃ o', (u.ask a).Follows stream o' := by
  by_cases hStopped : a = .iterate ∧ u.lexer.stopped = true
  · obtain ⟨rfl, hStopped⟩ := hStopped
    exact ⟨o, h.ask_stopped hStopped⟩
  have hGoes : a = .iterate → u.lexer.stopped = false := by
    intro hIterate
    rw [Bool.eq_false_iff]
    exact fun hTrue => hStopped ⟨hIterate, hTrue⟩
  obtain ⟨l', hAsk, hAfter, hStop⟩ := h.presents.ask hGoes
  have hLexer : (u.ask a).lexer = l' := by rw [Usage.ask, hAsk]
  have hReply : (u.lexer.ask a).1 = a.view o.reply := by rw [hAsk]
  refine ⟨o.after a, ?_, ?_, ?_, ?_, ?_⟩
  · rw [hLexer]
    exact hAfter
  · rw [handed_ask, hReply, List.append_assoc, o.handed_append_tokens]
    exact h.handed
  · -- still calm: the failure was not met
    intro hCalm'
    obtain ⟨hCalm, hNone⟩ := calm_ask_iff.mp hCalm'
    simp only [hReply, ne_eq, Ask.view_eq_failed_iff] at hNone
    obtain ⟨hFailure, hRuns⟩ := h.calm hCalm
    refine ⟨(Outlook.after_failure hNone).trans hFailure, ?_⟩
    rw [hLexer, Bool.eq_false_iff, ne_eq, hStop, hRuns]
    rintro (hTrue | ⟨-, e, hFailed⟩)
    · cases hTrue
    · exact hNone e hFailed
  · intro hMet
    by_cases hFailed : ∃ e, o.reply = .failed e
    · obtain ⟨e, hFailed⟩ := hFailed
      obtain rfl := Outlook.reply_eq_failed hFailed
      rw [Outlook.after_failed]
      exact ⟨rfl, h.again_eq⟩
    · -- the failure was met before, and nothing comes behind it
      have hNone : ∀ e, o.reply ≠ .failed e := fun e hReply => hFailed ⟨e, hReply⟩
      have hMet' : ¬ u.Calm := by
        intro hCalm
        refine hMet (calm_ask_iff.mpr ⟨hCalm, fun e hReply' => ?_⟩)
        rw [hReply, Ask.view_eq_failed_iff] at hReply'
        exact hNone e hReply'
      obtain ⟨hTokens, hFailure⟩ := h.met hMet'
      have hLeft := o.handed_append_tokens a
      rw [hTokens] at hLeft
      refine ⟨(List.append_eq_nil_iff.mp hLeft).2, ?_⟩
      rw [Outlook.after_failure hNone, hFailure]
  · rw [hLexer, hStop]
    intro r hMem hNoToken
    rcases List.mem_append.mp hMem with hMem | hMem
    · rcases h.fused r hMem hNoToken with hTrue | ⟨hTokens, hFailure⟩
      · exact Or.inl (Or.inl hTrue)
      · exact Or.inr (Outlook.after_empty hTokens hFailure a)
    · obtain ⟨rfl, rfl⟩ := Prod.mk.inj (List.mem_singleton.mp hMem)
      rw [hReply] at hNoToken
      rcases o.reply_cases with ⟨t, hToken⟩ | ⟨hTokens, hFailure⟩ | ⟨e, hFailed⟩
      · exact absurd hToken (hNoToken t)
      · exact Or.inr (Outlook.after_empty hTokens hFailure _)
      · exact Or.inl (Or.inr ⟨rfl, e, hFailed⟩)

section Replies

variable {a : Ask} {e : LexError}

theorem Follows.reply_calm (h : u.Follows stream o) (hCalm : u.Calm) :
    u.handed <+: stream.tokens ∧ ∀ a, (u.lexer.ask a).1 =
      a.view (Outlook.mk (stream.tokens.drop u.handed.length) stream.failure).reply := by
  refine ⟨⟨o.tokens, h.handed⟩, fun a => ?_⟩
  obtain ⟨hFailure, hGoes⟩ := h.calm hCalm
  obtain ⟨l', hAsk, -, -⟩ := h.presents.ask fun _ => hGoes
  rw [hAsk, ← h.handed, List.drop_left, ← hFailure]

theorem Follows.reply_ended (h : u.Follows stream o) (hTokens : o.tokens = [])
    (hFailure : o.failure = none) (a : Ask) : (u.lexer.ask a).1 = .ended := by
  obtain ⟨tokens, failure⟩ := o
  obtain rfl : tokens = [] := hTokens
  obtain rfl : failure = none := hFailure
  by_cases hStopped : a = .iterate ∧ u.lexer.stopped = true
  · obtain ⟨rfl, hStopped⟩ := hStopped
    rw [Lexer.ask_iterate_stopped hStopped]
  · obtain ⟨l', hAsk, -, -⟩ := h.presents.ask (a := a) (by simpa using hStopped)
    rw [hAsk]
    cases a <;> rfl

theorem Follows.reply_failed (h : u.Follows stream o) (hTokens : o.tokens = [])
    (hFailure : o.failure = some e) (hGoes : a = .iterate → u.lexer.stopped = false) :
    (u.lexer.ask a).1 = .failed e := by
  obtain ⟨tokens, failure⟩ := o
  obtain rfl : tokens = [] := hTokens
  obtain rfl : failure = some e := hFailure
  obtain ⟨l', hAsk, -, -⟩ := h.presents.ask hGoes
  rw [hAsk]
  exact Ask.view_eq_failed_iff.mpr rfl

theorem Follows.iterate_ended (h : u.Follows stream o) {r : Reply} (hMem : (.iterate, r) ∈ u.log)
    (hNoToken : ∀ t, r ≠ .token t) : (u.lexer.ask .iterate).1 = .ended := by
  rcases h.fused r hMem hNoToken with hStopped | ⟨hTokens, hFailure⟩
  · rw [Lexer.ask_iterate_stopped hStopped]
  · exact h.reply_ended hTokens hFailure .iterate

theorem Follows.tokens_eq_nil (h : u.Follows stream o) (hAll : u.handed = stream.tokens) :
    o.tokens = [] := by
  have hHanded := h.handed
  rwa [hAll, List.append_right_eq_self] at hHanded

end Replies

end Usage

-- ----------------------------------------------------------------------------
-- Several readers
-- ----------------------------------------------------------------------------

theorem serve_append (source : String) (requests more : List Request) :
    serve source (requests ++ more) = more.foldl Request.serve (serve source requests) :=
  List.foldl_append

/-- Serving a request keeps what holds of every reader, if asking a reader keeps it. -/
theorem Request.serve_forall {P : Usage → Prop} (hAsk : ∀ u a, P u → P (u.ask a))
    {readers : List Usage} (h : ∀ u ∈ readers, P u) (request : Request) :
    ∀ u ∈ request.serve readers, P u := by
  cases request with
  | ask i a =>
    intro u (hu : u ∈ readers.modify i (Usage.ask · a))
    obtain ⟨j, hj, rfl⟩ := List.mem_iff_getElem.mp hu
    rw [List.getElem_modify]
    split
    · exact hAsk _ a (h _ (List.getElem_mem _))
    · exact h _ (List.getElem_mem _)
  | clone i =>
    intro u hu
    rcases List.mem_append.mp hu with hu | hu
    · exact h u hu
    · exact h u (List.mem_of_getElem? (Option.mem_toList.mp hu))

/-- **Every reader follows the stream of the text**, whatever was asked of it and of the others. -/
theorem follows_of_mem_serve {source : String} {stream : Outlook}
    (h : (Cursor.ofText source).Streams stream) (requests : List Request) :
    ∀ u ∈ serve source requests, ∃ o, u.Follows stream o := by
  induction requests using List.reverseRecOn with
  | nil =>
    intro u hu
    obtain rfl := List.mem_singleton.mp hu
    refine ⟨stream, .fresh rfl h, rfl, fun _ => ⟨rfl, rfl⟩, fun hMet => ?_, fun _ hMem => ?_⟩
    · exact absurd (fun _ _ hMem => by cases hMem) hMet
    · cases hMem
  | append_singleton requests request ih =>
    rw [serve_append]
    refine request.serve_forall ?_ ih
    rintro u a ⟨o, hFollows⟩
    exact hFollows.ask a

/-- A request that does not ask a reader leaves it as it is. -/
theorem Request.getElem?_serve {readers : List Usage} {i : Nat} (hi : i < readers.length)
    {request : Request} (h : ∀ a, request ≠ .ask i a) :
    (request.serve readers)[i]? = readers[i]? ∧ i < (request.serve readers).length := by
  cases request with
  | ask j a =>
    have hOther : j ≠ i := by
      rintro rfl
      exact h a rfl
    refine ⟨?_, by rwa [serve, List.length_modify]⟩
    simp [serve, hOther]
  | clone j =>
    refine ⟨List.getElem?_append_left hi, ?_⟩
    rw [serve, List.length_append]
    omega

theorem getElem?_serve_append {source : String} {requests : List Request} {i : Nat}
    (hi : i < (serve source requests).length) {more : List Request}
    (h : ∀ a, .ask i a ∉ more) :
    (serve source (requests ++ more))[i]? = (serve source requests)[i]? := by
  rw [serve_append]
  generalize serve source requests = readers at hi ⊢
  induction more generalizing readers with
  | nil => rfl
  | cons request more ih =>
    obtain ⟨hSame, hLength⟩ := Request.getElem?_serve hi
      (fun a hAsk => h a (hAsk ▸ List.mem_cons_self))
    rw [List.foldl_cons, ih (fun a hMem => h a (List.mem_cons_of_mem _ hMem)) _ hLength, hSame]

theorem EndsWith.fault {past rest : List Char} {e : LexError} (h : EndsWith past rest (some e)) :
    (∃ c, e.fault = .unexpectedCharacter c) ∨ e.fault = .unterminatedString := by
  cases h with
  | @unexpected _ _ c => exact Or.inl ⟨c, rfl⟩
  | unterminated => exact Or.inr rfl

/--
**Looking ahead and reading on see one stream.** Some readers of one text, of
which all but the first are clones, are asked in any order and in any way. As
long as no reply of a reader was a failure, it has handed out the front of what
a plain iteration over the text yields, and replies with what comes next there,
however it is asked; a failure comes only behind the last token.

Behind the last token of a text that ends quietly, every reply is the end. A
character that opens no word fails for ever, and an open string once, after
which every reply is the end. An iteration that gave no token, an error or
nothing, gives nothing for ever. A reader is what it was asked itself, whatever
is asked of its clones.
-/
theorem interleaving_sees_one_stream (source : String) (requests : List Request) :
    let plain := (Lexer.ofText source).iterateAll
    (∀ u ∈ serve source requests,
      (u.Calm → u.handed <+: plain.1 ∧ ∀ a, (u.lexer.ask a).1 =
        a.view (Outlook.mk (plain.1.drop u.handed.length) plain.2.1).reply) ∧
      (¬ u.Calm → u.handed = plain.1) ∧
      (u.handed = plain.1 → ∀ a,
        (plain.2.1 = none → (u.lexer.ask a).1 = .ended) ∧
        (∀ e c, plain.2.1 = some e → e.fault = .unexpectedCharacter c → a ≠ .iterate →
          (u.lexer.ask a).1 = .failed e) ∧
        (∀ e, plain.2.1 = some e → e.fault = .unterminatedString →
          (u.Calm → (u.lexer.ask a).1 = .failed e) ∧
          (¬ u.Calm → (u.lexer.ask a).1 = .ended))) ∧
      (∀ r, (.iterate, r) ∈ u.log → (∀ t, r ≠ .token t) → (u.lexer.ask .iterate).1 = .ended)) ∧
    (∀ e, plain.2.1 = some e →
      (∃ c, e.fault = .unexpectedCharacter c) ∨ e.fault = .unterminatedString) ∧
    (∀ i < (serve source requests).length, ∀ more, (∀ a, .ask i a ∉ more) →
      (serve source (requests ++ more))[i]? = (serve source requests)[i]?) := by
  intro plain
  obtain ⟨past, rest, hText, hEnd⟩ := iterateAll_ends source
  refine ⟨?_, ?_, fun i hi more hMore => getElem?_serve_append hi hMore⟩
  · intro u hu
    obtain ⟨o, h⟩ := follows_of_mem_serve (hText.streams hEnd) requests u hu
    refine ⟨h.reply_calm, ?_, ?_, fun r => h.iterate_ended⟩
    · intro hMet
      have hHanded := h.handed
      rwa [(h.met hMet).1, List.append_nil] at hHanded
    intro hAll a
    have hTokens := h.tokens_eq_nil hAll
    refine ⟨?_, ?_, ?_⟩
    · intro hNone
      refine h.reply_ended hTokens ?_ a
      rcases h.failure_eq with hFailure | hFailure <;> simpa [plain, hNone] using hFailure
    · intro e c hFailed hFault hLooks
      have hAgain : e.again = some e := by rw [LexError.again, hFault]
      refine h.reply_failed hTokens ?_ fun hIterate => absurd hIterate hLooks
      rcases h.failure_eq with hFailure | hFailure <;>
        simpa [plain, hFailed, hAgain] using hFailure
    · intro e hFailed hFault
      have hAgain : e.again = none := by rw [LexError.again, hFault]
      refine ⟨fun hCalm => ?_, fun hMet => ?_⟩
      · obtain ⟨hFailure, hGoes⟩ := h.calm hCalm
        exact h.reply_failed hTokens (hFailure.trans hFailed) fun _ => hGoes
      · refine h.reply_ended hTokens ?_ a
        rw [(h.met hMet).2, hFailed, Option.bind_some, hAgain]
  · rintro e hFailure
    have hFailed : EndsWith past rest (some e) := hFailure ▸ hEnd
    exact hFailed.fault

/-- Behind the one token of `a "b`, where a string is open, the first reader has met the failure,
and its clone has not. -/
theorem interleaving_sees_one_stream_openString :
    let readers := serve "a \"b" [.ask 0 .peek, .clone 0, .ask 0 .iterate, .ask 0 .atEnd]
    ∃ u v, readers = [u, v] ∧ (.atEnd, .failed ⟨.unterminatedString, ⟨1, 4⟩⟩) ∈ u.log ∧
      (u.lexer.ask .next).1 = .ended ∧ v.Calm ∧
      (v.lexer.ask .next).1 = .token ⟨.name "a", ⟨1, 0⟩⟩ := by
  intro readers
  have hReaders : readers =
      [⟨[(.peek, .token ⟨.name "a", ⟨1, 0⟩⟩), (.iterate, .token ⟨.name "a", ⟨1, 0⟩⟩),
          (.atEnd, .failed ⟨.unterminatedString, ⟨1, 4⟩⟩)], ⟨⟨[], ⟨1, 4⟩⟩, none, false⟩⟩,
        ⟨[(.peek, .token ⟨.name "a", ⟨1, 0⟩⟩)],
          ⟨⟨[' ', '"', 'b'], ⟨1, 1⟩⟩, some ⟨.name "a", ⟨1, 0⟩⟩, false⟩⟩] := rfl
  have hTokens : (Lexer.ofText "a \"b").iterateAll.1 = [⟨.name "a", ⟨1, 0⟩⟩] := rfl
  have hFailure : (Lexer.ofText "a \"b").iterateAll.2.1 =
      some ⟨.unterminatedString, ⟨1, 4⟩⟩ := rfl
  obtain ⟨hAll, -⟩ := interleaving_sees_one_stream "a \"b"
    [.ask 0 .peek, .clone 0, .ask 0 .iterate, .ask 0 .atEnd]
  have hMet := (hAll _ (hReaders ▸ List.mem_cons_self)).2.2.1
  have hCalm := (hAll _ (hReaders ▸ List.mem_cons_of_mem _ List.mem_cons_self)).1
  rw [hTokens, hFailure] at hMet hCalm
  have hLog : (Ask.atEnd, Reply.failed ⟨.unterminatedString, ⟨1, 4⟩⟩) ∈
      [(Ask.peek, Reply.token ⟨.name "a", ⟨1, 0⟩⟩), (.iterate, .token ⟨.name "a", ⟨1, 0⟩⟩),
        (.atEnd, .failed ⟨.unterminatedString, ⟨1, 4⟩⟩)] := by simp
  have hClone : Usage.Calm ⟨[(.peek, .token ⟨.name "a", ⟨1, 0⟩⟩)],
      ⟨⟨[' ', '"', 'b'], ⟨1, 1⟩⟩, some ⟨.name "a", ⟨1, 0⟩⟩, false⟩⟩ := by
    intro a e hMem
    simp at hMem
  have hEnded := ((hMet rfl .next).2.2 _ rfl rfl).2 fun h => h _ _ hLog
  exact ⟨_, _, hReaders, hLog, hEnded, hClone, (hCalm hClone).2 .next⟩

end Zaban
