import Zaban.Syntax.Node
import Zaban.Syntax.ParseError

/-!
# From tokens to trees

The grammar of the language, read from left to right with one token of
look-ahead:

* a **program** is expressions separated by semicolons, the last of which may
  be followed by one;
* an **expression** is a chain of operands joined by operators, grouped by
  precedence, and operators of one precedence to the left;
* an **operand** is an atom followed by any number of argument lists;
* an **atom** is a name, a literal, an expression in parentheses, a block in
  braces, a conditional or a function. The branches of a conditional and the
  body of a function are again expressions, and reach as far as they can.

A reader of a phrase takes the tokens that are left and gives the phrase with
the tokens behind it. Where the tokens run out, how the scan of the text
ended decides: a text that was read to its end lacks something, and a word at
fault is reported as it is. A token that no reader asks for is never looked
at, so a syntax error before the word at fault is the one reported.

Every reader carries fuel, so that it is total by recursion on that number.
At most four readers call one another before one of them takes a token, so
`parse` grants a multiple of the number of tokens; running out is kept apart
from errors of the text, as `Halt.outOfFuel`.
-/

namespace Zaban

-- ----------------------------------------------------------------------------
-- Operators of a chain
-- ----------------------------------------------------------------------------

/-- What can join two operands. -/
inductive ChainOp where
  /-- Gives the left operand the value of the right one. -/
  | assign
  /-- Computes a value. -/
  | compute (op : BinaryOp)
deriving DecidableEq

namespace ChainOp

/-- The operator spelled `s`, if there is one. -/
def ofSymbol? (s : String) : Option ChainOp :=
  if s = "=" then some assign else (BinaryOp.ofSymbol? s).map compute

/-- Assignment binds weakest. -/
def precedence : ChainOp → Nat
  | assign => 1
  | compute op => op.precedence

/-- The tree of an operator and its operands. -/
def join : ChainOp → Node → Node → Node
  | assign, left, right => .assignment left right
  | compute op, left, right => .binary op left right

theorem binary_inj {b b' : BinaryOp} : Node.binary b = Node.binary b' ↔ b = b' := by
  constructor
  · intro h
    exact (Node.binary.inj (congrFun (congrFun h default) default)).1
  · rintro rfl
    rfl

/-- **The operators of a chain**: how each is spelled, how tightly it binds and the tree that it
makes of its operands. No other text spells an operator. -/
theorem ofSymbol?_eq_some_iff (s : String) (op : ChainOp) :
    ofSymbol? s = some op ↔ (s, op.precedence, op.join) ∈ [
      ("=", 1, Node.assignment),
      ("||", 2, Node.binary .or),
      ("&&", 3, Node.binary .and),
      ("<", 7, Node.binary .less),
      (">", 7, Node.binary .greater),
      ("<=", 7, Node.binary .lessEqual),
      (">=", 7, Node.binary .greaterEqual),
      ("==", 7, Node.binary .equal),
      ("!=", 7, Node.binary .notEqual),
      ("+", 10, Node.binary .plus),
      ("-", 10, Node.binary .minus),
      ("*", 20, Node.binary .times),
      ("/", 20, Node.binary .divide),
      ("%", 20, Node.binary .modulo)] := by
  have hAssign : assign.join = Node.assignment := rfl
  have hCompute (b : BinaryOp) : (compute b).join = Node.binary b := rfl
  constructor
  · intro h
    unfold ofSymbol? at h
    split at h
    · obtain rfl : assign = op := Option.some.inj h
      subst s
      exact List.mem_cons_self
    · obtain ⟨b, hFind, rfl⟩ := Option.map_eq_some_iff.mp h
      have hSymbol : b.symbol = s := by simpa using List.find?_some hFind
      subst s
      rw [hCompute]
      cases b <;> simp [BinaryOp.symbol, precedence, BinaryOp.precedence]
  · intro h
    cases op with
    | assign =>
      obtain rfl : s = "=" := by simpa [precedence, hAssign] using h
      rfl
    | compute b =>
      -- the trees tell operators of one precedence apart
      have hSymbol : s = b.symbol := by
        rw [hCompute] at h
        cases b <;> simpa [precedence, BinaryOp.precedence, BinaryOp.symbol, binary_inj] using h
      subst s
      cases b <;> decide

end ChainOp

namespace Token

/-- The operator of a chain that the token is, if it is one. -/
def chainOp? (t : Token) : Option ChainOp :=
  match t.kind with
  | .operator symbol => ChainOp.ofSymbol? symbol
  | _ => none

/-- Is the token the punctuation character `mark`? -/
def isMark (mark : Char) (t : Token) : Bool :=
  match t.kind with
  | .punctuation c => c == mark
  | _ => false

/-- Is the token the keyword `word`? -/
def isKeyword (word : Keyword) (t : Token) : Bool :=
  match t.kind with
  | .keyword k => k == word
  | _ => false

end Token

-- ----------------------------------------------------------------------------
-- Single tokens
-- ----------------------------------------------------------------------------

/-- Why a reader gives no phrase. -/
inductive Halt where
  /-- The text is not a program. -/
  | fault (error : ParseError)
  /-- The recursion was cut off. -/
  | outOfFuel

/-- The outcome of reading a phrase. -/
abbrev Outcome := Except Halt

/-- A phrase and the tokens behind it. -/
abbrev Phrase (α : Type) := α × List Token

/-- The fault of a text that ends where `expected` should stand. -/
def Ending.missing (fin : Ending) (expected : Expected) : Halt :=
  match fin with
  | .finished position => .fault (.prematureEnd expected position)
  | .failed error => .fault (.lexical error)

/-- A phrase that may stand last in a text: it does unless a word at fault follows. -/
def Ending.close {α : Type} (fin : Ending) (a : α) : Outcome (Phrase α) :=
  match fin with
  | .finished _ => .ok (a, [])
  | .failed error => .error (.fault (.lexical error))

/-- The phrase `expected` cannot start with the token `t`. -/
def refuse {α : Type} (expected : Expected) (t : Token) : Outcome (Phrase α) :=
  .error (.fault (.unexpectedToken expected t))

/-- Takes the punctuation character `mark`. -/
def takeMark (fin : Ending) (mark : Char) : List Token → Outcome (Phrase Unit)
  | [] => .error (fin.missing (.punctuation mark))
  | t :: ts => if t.isMark mark then .ok ((), ts) else refuse (.punctuation mark) t

/-- Takes the keyword `word`. -/
def takeKeyword (fin : Ending) (word : Keyword) : List Token → Outcome (Phrase Unit)
  | [] => .error (fin.missing (.keyword word))
  | t :: ts => if t.isKeyword word then .ok ((), ts) else refuse (.keyword word) t

/-- Takes a name. -/
def takeName (fin : Ending) : List Token → Outcome (Phrase String)
  | [] => .error (fin.missing .variableName)
  | t :: ts =>
    match t.kind with
    | .name word => .ok (word, ts)
    | _ => refuse .variableName t

-- ----------------------------------------------------------------------------
-- Lists
-- ----------------------------------------------------------------------------

/-- Is the next token the punctuation character `mark`? -/
def nextIs (mark : Char) (ts : List Token) : Bool :=
  ts.head?.any (Token.isMark mark)

/-- The items of a list behind its opening bracket, up to and with the bracket `stop`. A separator
stands between two items, and one may stand behind the last. -/
def readItems {α : Type} (fin : Ending) (item : List Token → Outcome (Phrase α))
    (separator stop : Char) :
    (fuel : Nat) → (first : Bool) → List Token → Outcome (Phrase (List α))
  | 0, _, _ => .error .outOfFuel
  | fuel + 1, first, ts =>
    if ts.isEmpty then .error (fin.missing (.punctuation stop))
    else if nextIs stop ts then .ok ([], ts.tail)
    else do
      let (_, ts) ← if first then pure ((), ts) else takeMark fin separator ts
      if nextIs stop ts then return ([], ts.tail)
      else
        let (a, ts) ← item ts
        let (as, ts) ← readItems fin item separator stop fuel false ts
        return (a :: as, ts)

/-- A block stands for its only expression; without any it stands for the false literal. -/
def blockNode : List Node → Node
  | [] => .boolean false
  | [x] => x
  | xs => .program xs

-- ----------------------------------------------------------------------------
-- Expressions
-- ----------------------------------------------------------------------------

mutual

/-- An expression: a chain of operands. -/
def readExpression (fin : Ending) : (fuel : Nat) → List Token → Outcome (Phrase Node)
  | 0, _ => .error .outOfFuel
  | fuel + 1, ts => do
    let (first, ts) ← readOperand fin fuel ts
    let (chain, ts) ← readChain fin fuel 0 first ts
    readArguments fin fuel chain ts

/-- Joins operands to `left` for as long as operators of a precedence above `threshold` follow. -/
def readChain (fin : Ending) :
    (fuel : Nat) → (threshold : Nat) → (left : Node) → List Token → Outcome (Phrase Node)
  | 0, _, _, _ => .error .outOfFuel
  | fuel + 1, threshold, left, ts =>
    match ts with
    | [] => fin.close left
    | t :: rest =>
      match t.chainOp? with
      | none => .ok (left, ts)
      | some op =>
        if op.precedence ≤ threshold then .ok (left, ts)
        else do
          let (next, ts) ← readOperand fin fuel rest
          let (right, ts) ← readChain fin fuel op.precedence next ts
          readChain fin fuel threshold (op.join left right) ts

/-- Applies `callee` to the argument lists that follow. -/
def readArguments (fin : Ending) :
    (fuel : Nat) → (callee : Node) → List Token → Outcome (Phrase Node)
  | 0, _, _ => .error .outOfFuel
  | fuel + 1, callee, ts =>
    match ts with
    | [] => fin.close callee
    | t :: rest =>
      if t.isMark '(' then do
        let (args, ts) ← readItems fin (readExpression fin fuel) ',' ')' fuel true rest
        readArguments fin fuel (.call callee args) ts
      else .ok (callee, ts)

/-- An operand: an atom and the argument lists that follow it. -/
def readOperand (fin : Ending) : (fuel : Nat) → List Token → Outcome (Phrase Node)
  | 0, _ => .error .outOfFuel
  | fuel + 1, ts =>
    match ts with
    | [] => .error (fin.missing .expression)
    | t :: rest => do
      let (atom, ts) ← readAtom fin fuel t rest
      readArguments fin fuel atom ts

/-- An atom whose first token is `t`. -/
def readAtom (fin : Ending) : (fuel : Nat) → (t : Token) → List Token → Outcome (Phrase Node)
  | 0, _, _ => .error .outOfFuel
  | fuel + 1, t, ts =>
    match t.kind with
    | .punctuation '(' => do
      let (inner, ts) ← readExpression fin fuel ts
      let (_, ts) ← takeMark fin ')' ts
      return (inner, ts)
    | .punctuation '{' => do
      let (body, ts) ← readItems fin (readExpression fin fuel) ';' '}' fuel true ts
      return (blockNode body, ts)
    | .keyword .yeli => readConditional fin fuel ts
    | .keyword .banav | .keyword .lambda => readFunction fin fuel ts
    | .keyword .poz => .ok (.boolean true, ts)
    | .keyword .apuz => .ok (.boolean false, ts)
    | .name word => .ok (.var word, ts)
    | .number value => .ok (.number value, ts)
    | .string value => .ok (.string value, ts)
    | _ => refuse .expression t

/-- A conditional, behind its first keyword. The keyword before the first branch may be left out
where that branch opens with a brace. -/
def readConditional (fin : Ending) : (fuel : Nat) → List Token → Outcome (Phrase Node)
  | 0, _ => .error .outOfFuel
  | fuel + 1, ts => do
    let (test, ts) ← readExpression fin fuel ts
    let (_, ts) ← if nextIs '{' ts then pure ((), ts) else takeKeyword fin .teli ts
    let (yes, ts) ← readExpression fin fuel ts
    match ts with
    | [] => fin.close (.condition test yes none)
    | t :: rest =>
      if t.isKeyword .nate then do
        let (no, ts) ← readExpression fin fuel rest
        return (.condition test yes (some no), ts)
      else return (.condition test yes none, ts)

/-- A function, behind its keyword: a list of parameters and a body. -/
def readFunction (fin : Ending) : (fuel : Nat) → List Token → Outcome (Phrase Node)
  | 0, _ => .error .outOfFuel
  | fuel + 1, ts => do
    let (_, ts) ← takeMark fin '(' ts
    let (params, ts) ← readItems fin (takeName fin) ',' ')' fuel true ts
    let (body, ts) ← readExpression fin fuel ts
    return (.lambda params body, ts)

end

-- ----------------------------------------------------------------------------
-- Programs
-- ----------------------------------------------------------------------------

/-- The expressions of a program, up to the end of the text. -/
def readProgram (fin : Ending) : (fuel : Nat) → List Token → Outcome (Phrase (List Node))
  | 0, _ => .error .outOfFuel
  | fuel + 1, ts =>
    match ts with
    | [] => fin.close []
    | _ :: _ => do
      let (x, ts) ← readExpression fin fuel ts
      match ts with
      | [] => fin.close [x]
      | _ :: _ =>
        let (_, ts) ← takeMark fin ';' ts
        let (xs, ts) ← readProgram fin fuel ts
        return (x :: xs, ts)

/-- Enough fuel for a program of `n` tokens. -/
def parseFuel (n : Nat) : Nat :=
  5 * n + 10

/-- The program that the tokens of a scanned text spell. The fuel suffices, so the last case does
not arise. -/
def Scan.parse (s : Scan) : Except ParseError Node :=
  match readProgram s.ending (parseFuel s.tokens.length) s.tokens with
  | .ok (body, _) => .ok (.program body)
  | .error (.fault error) => .error error
  | .error .outOfFuel => .error (.prematureEnd .expression .start)

/-- The program that a text spells. -/
def parse (text : String) : Except ParseError Node :=
  (scan text).parse

end Zaban
