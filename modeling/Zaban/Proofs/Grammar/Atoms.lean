import Zaban.Proofs.Grammar.Derivation

/-!
# What a tree keeps of its tokens

Brackets, separators and the words `teli` and `nate` only shape a tree. What
else a token list says are its **atoms**: names, literals, operators, and the
words that open a function or a conditional. A tree has atoms too, read off in
the order in which its text has them.

`Expression.spells` says that the two lists are the same, whichever derivation
the tree comes from: nothing is lost, nothing is said twice, and the order is
kept. The one atom without a token of its own is the false literal of an empty
block, which `contents` reads off the two braces.
-/

namespace Zaban

/-- What a program says, apart from its shape. -/
inductive Atom where
  | name (word : String)
  | number (value : Float)
  | string (value : String)
  | boolean (value : Bool)
  | operator (op : ChainOp)
  | function
  | conditional

namespace Node

mutual

/-- The atoms of a tree, in the order of its text. -/
def atoms : Node → List Atom
  | program body => allAtoms body
  | assignment target value => atoms target ++ .operator .assign :: atoms value
  | binary op left right => atoms left ++ .operator (.compute op) :: atoms right
  | condition test yes no => .conditional :: (atoms test ++ (atoms yes ++ elseAtoms no))
  | lambda params body => .function :: (params.map .name ++ atoms body)
  | call callee args => atoms callee ++ allAtoms args
  | var name => [.name name]
  | number value => [.number value]
  | string value => [.string value]
  | boolean value => [.boolean value]

/-- The atoms of some trees, one after another. -/
def allAtoms : List Node → List Atom
  | [] => []
  | n :: ns => atoms n ++ allAtoms ns

/-- The atoms of a branch that may be absent. -/
def elseAtoms : Option Node → List Atom
  | none => []
  | some n => atoms n

end

theorem allAtoms_eq_flatMap (ns : List Node) : allAtoms ns = ns.flatMap atoms := by
  induction ns with
  | nil => rfl
  | cons n ns ih => rw [allAtoms, ih, List.flatMap_cons]

theorem atoms_join (op : ChainOp) (left right : Node) :
    (op.join left right).atoms = left.atoms ++ .operator op :: right.atoms := by
  cases op <;> rfl

theorem atoms_blockNode {body : List Node} (h : body ≠ []) :
    (blockNode body).atoms = allAtoms body := by
  match body, h with
  | [n], _ => simp [blockNode, allAtoms]
  | _ :: _ :: _, _ => simp [blockNode, atoms]

end Node

/-- The atom that a token is by itself. -/
def Token.atom? (t : Token) : Option Atom :=
  match t.kind with
  | .number value => some (.number value)
  | .string value => some (.string value)
  | .punctuation _ => none
  | .operator symbol => (ChainOp.ofSymbol? symbol).map .operator
  | .keyword .yeli => some .conditional
  | .keyword .banav | .keyword .lambda => some .function
  | .keyword .poz => some (.boolean true)
  | .keyword .apuz => some (.boolean false)
  | .keyword .teli | .keyword .nate => none
  | .name word => some (.name word)

/-- The atoms of a token list. A brace that is closed at once stands for the false literal. -/
def contents : List Token → List Atom
  | [] => []
  | t :: ts =>
    (if t.isMark '{' && nextIs '}' ts then [.boolean false] else t.atom?.toList) ++ contents ts

namespace Grammar

-- ----------------------------------------------------------------------------
-- Contents of joined lists
-- ----------------------------------------------------------------------------

/-- The last token is not an opening brace. -/
def Shut (ts : List Token) : Prop :=
  ∀ t ∈ ts.getLast?, t.kind ≠ .punctuation '{'

theorem shut_nil : Shut [] := by
  simp [Shut]

theorem shut_concat {ts : List Token} {t : Token} (h : t.kind ≠ .punctuation '{') :
    Shut (ts ++ [t]) := by
  intro u hu
  rw [List.getLast?_concat, Option.mem_some_iff] at hu
  exact hu ▸ h

theorem shut_singleton {t : Token} (h : t.kind ≠ .punctuation '{') : Shut [t] :=
  @shut_concat [] t h

theorem Shut.append {ts us : List Token} (hTs : Shut ts) (hUs : Shut us) : Shut (ts ++ us) := by
  intro t ht
  rw [List.getLast?_append, Option.mem_def, Option.or_eq_some_iff] at ht
  rcases ht with ht | ⟨-, ht⟩
  · exact hUs t ht
  · exact hTs t ht

/-- What follows a shut list does not change its contents. -/
theorem contents_append {ts us : List Token} (h : Shut ts) :
    contents (ts ++ us) = contents ts ++ contents us := by
  induction ts with
  | nil => rfl
  | cons t rest ih =>
    cases rest with
    | nil =>
      have hOpen : t.isMark '{' = false := by
        rw [Bool.eq_false_iff]
        intro hMark
        exact h t (by simp) (Token.isMark_iff.mp hMark)
      simp [contents, hOpen]
    | cons u vs =>
      have hRest : Shut (u :: vs) := by
        intro v hv
        exact h v (by rwa [List.getLast?_cons_cons])
      have hNext : nextIs '}' (u :: vs ++ us) = nextIs '}' (u :: vs) := rfl
      rw [List.cons_append, contents, contents, ih hRest, hNext, List.append_assoc]

/-- A token in front that is no opening brace adds its own atom. -/
theorem contents_cons {t : Token} {ts : List Token} (h : t.kind ≠ .punctuation '{') :
    contents (t :: ts) = t.atom?.toList ++ contents ts := by
  have hOpen : t.isMark '{' = false := by
    rw [Bool.eq_false_iff]
    intro hMark
    exact h (Token.isMark_iff.mp hMark)
  simp [contents, hOpen]

/-- Punctuation that is no opening brace adds nothing. -/
theorem contents_mark {t : Token} {ts : List Token} {mark : Char}
    (hKind : t.kind = .punctuation mark) (h : mark ≠ '{') : contents (t :: ts) = contents ts := by
  rw [contents_cons (by simpa [hKind] using h)]
  simp [Token.atom?, hKind]

-- ----------------------------------------------------------------------------
-- Contents of phrases
-- ----------------------------------------------------------------------------

/-- The tree says what the tokens say. -/
structure Spells (ts : List Token) (n : Node) : Prop where
  atoms : contents ts = n.atoms
  shut  : Shut ts

/-- The atoms of a chain do not depend on how it is grouped. -/
theorem Grouping.atoms {first n : Node} {rest : List (ChainOp × Node)}
    (h : Grouping first rest n) :
    n.atoms = first.atoms ++ rest.flatMap fun x => .operator x.1 :: x.2.atoms := by
  induction h with
  | operand n => simp
  | join _ _ ihLeft ihRight => simp [Node.atoms_join, ihLeft, ihRight]

theorem Tail.spells {operand : List Token → Node → Prop} {ts : List Token}
    {xs : List (ChainOp × Node)} (h : Tail (Both operand Spells) ts xs) :
    contents ts = (xs.flatMap fun x => .operator x.1 :: x.2.atoms) ∧ Shut ts := by
  induction h with
  | nil => exact ⟨rfl, shut_nil⟩
  | @cons t op ts us n rest hOp hOperand _ ih =>
    obtain ⟨-, hAtoms, hShut⟩ := hOperand
    obtain ⟨symbol, hKind, hSymbol⟩ : ∃ symbol, t.kind = .operator symbol ∧
        ChainOp.ofSymbol? symbol = some op := by
      unfold Token.chainOp? at hOp
      split at hOp
      · exact ⟨_, ‹_›, hOp⟩
      · cases hOp
    have hOpen : t.kind ≠ .punctuation '{' := by simp [hKind]
    constructor
    · rw [List.cons_append, contents_cons hOpen, contents_append hShut, hAtoms, ih.1]
      simp [Token.atom?, hKind, hSymbol]
    · exact ((shut_singleton hOpen).append hShut).append ih.2

/-- The contents of a list are those of its items, one after another. -/
theorem Listed.spells {α : Type} {item : List Token → α → Prop} {separator : Char}
    {f : α → List Atom} (hItems : ∀ ts a, item ts a → contents ts = f a ∧ Shut ts)
    (hSep : separator ≠ '{') {ts : List Token} {xs : List α} (h : Listed item separator ts xs) :
    contents ts = xs.flatMap f ∧ Shut ts := by
  induction h with
  | nil => exact ⟨rfl, shut_nil⟩
  | last hItem =>
    obtain ⟨hAtoms, hShut⟩ := hItems _ _ hItem
    exact ⟨by simpa using hAtoms, hShut⟩
  | @cons ts us t a as hItem hMark _ ih =>
    obtain ⟨hAtoms, hShut⟩ := hItems _ _ hItem
    constructor
    · rw [contents_append hShut, contents_mark hMark hSep, hAtoms, ih.1, List.flatMap_cons]
    · have hOpen : t.kind ≠ .punctuation '{' := by simpa [hMark] using hSep
      exact hShut.append ((shut_singleton hOpen).append ih.2)

theorem Name.spells {ts : List Token} {word : String} (h : Name ts word) :
    contents ts = [.name word] ∧ Shut ts := by
  obtain ⟨t, rfl, hKind⟩ := h
  have hOpen : t.kind ≠ .punctuation '{' := by simp [hKind]
  exact ⟨by simp [contents, Token.atom?, hKind], shut_singleton hOpen⟩

theorem Listed.expressions_spell {separator : Char} (hSep : separator ≠ '{')
    {ts : List Token} {xs : List Node}
    (h : Listed (Both Expression Spells) separator ts xs) :
    contents ts = Node.allAtoms xs ∧ Shut ts := by
  rw [Node.allAtoms_eq_flatMap]
  exact h.spells (fun _ _ hItem => ⟨hItem.2.atoms, hItem.2.shut⟩) hSep

/-- A leaf says what its token says. -/
theorem leaf_spells {t : Token} {n : Node} (h : t.leaf? = some n) : Spells [t] n := by
  have hOpen : t.kind ≠ .punctuation '{' := by
    intro hKind
    simp [Token.leaf?, hKind] at h
  refine ⟨?_, shut_singleton hOpen⟩
  rw [contents_cons hOpen, contents, List.append_nil]
  unfold Token.leaf? at h
  split at h
  all_goals cases h
  all_goals simp [Token.atom?, Node.atoms, *]

/-- A block says what its expressions say; an empty one says that it is false. -/
theorem block_spells {o c : Token} {ts : List Token} {body : List Node}
    (hOpen : o.kind = .punctuation '{') (hBody : Listed (Both Expression Spells) ';' ts body)
    (hClose : c.kind = .punctuation '}') : Spells (o :: (ts ++ [c])) (blockNode body) := by
  have hBrace : c.kind ≠ .punctuation '{' := by simp [hClose]
  refine ⟨?_, @shut_concat (o :: ts) c hBrace⟩
  obtain ⟨hAtoms, hShut⟩ := hBody.expressions_spell (by decide)
  have hLast : contents [c] = [] := contents_mark hClose (by decide)
  have hMark : o.isMark '{' = true := Token.isMark_iff.mpr hOpen
  have hEnd : c.isMark '}' = true := Token.isMark_iff.mpr hClose
  have hNone : o.atom? = none := by simp [Token.atom?, hOpen]
  -- only where nothing stands between the braces is the closing one next
  have hNonempty : body ≠ [] → nextIs '}' (ts ++ [c]) = false ∧ (blockNode body).atoms =
      Node.allAtoms body := by
    intro hNe
    refine ⟨?_, Node.atoms_blockNode hNe⟩
    cases hBody with
    | nil => exact absurd rfl hNe
    | last hItem => exact hItem.1.nextIs_eq_false (by decide) (by decide) [c]
    | cons hItem =>
      rw [List.append_assoc]
      exact hItem.1.nextIs_eq_false (by decide) (by decide) _
  cases hBody with
  | nil => simp [contents, hMark, hEnd, blockNode, Node.atoms, Token.atom?, hClose]
  | last | cons =>
    obtain ⟨hNext, hTree⟩ := hNonempty (by simp)
    rw [contents, hNext, contents_append hShut, hAtoms, hTree, hLast, hNone]
    simp

/-- A conditional says that it is one, and what its parts say. -/
theorem conditional_spells {k : Token} {ts ws us vs : List Token} {test yes : Node}
    {no : Option Node} (hWord : k.kind = .keyword .yeli) (hTest : Spells ts test)
    (hBridge : Bridge ws us) (hYes : Spells us yes)
    (hNo : Otherwise (Both Expression Spells) vs no) :
    Spells (k :: (ts ++ (ws ++ (us ++ vs)))) (.condition test yes no) := by
  have hBridgeSays : contents ws = [] ∧ Shut ws := by
    rcases hBridge with ⟨t, rfl, hKind⟩ | ⟨rfl, -⟩
    · have hOpen : t.kind ≠ .punctuation '{' := by simp [hKind]
      exact ⟨by simp [contents, Token.atom?, hKind], shut_singleton hOpen⟩
    · exact ⟨rfl, shut_nil⟩
  have hNoSays : contents vs = Node.elseAtoms no ∧ Shut vs := by
    cases hNo with
    | absent => exact ⟨rfl, shut_nil⟩
    | @present t _ _ hNate hBranch =>
      have hOpen : t.kind ≠ .punctuation '{' := by simp [hNate]
      refine ⟨?_, (shut_singleton hOpen).append hBranch.2.shut⟩
      rw [contents_cons hOpen, hBranch.2.atoms]
      simp [Token.atom?, hNate, Node.elseAtoms]
  have hOpen : k.kind ≠ .punctuation '{' := by simp [hWord]
  constructor
  · rw [contents_cons hOpen, contents_append hTest.shut, contents_append hBridgeSays.2,
      contents_append hYes.shut, hTest.atoms, hBridgeSays.1, hYes.atoms, hNoSays.1]
    simp [Token.atom?, hWord, Node.atoms]
  · exact (shut_singleton hOpen).append
      (hTest.shut.append (hBridgeSays.2.append (hYes.shut.append hNoSays.2)))

/-- A function says that it is one, its parameters, and what its body says. -/
theorem function_spells {k o c : Token} {ts us : List Token} {params : List String} {body : Node}
    (hWord : k.OpensFunction) (hOpen : o.kind = .punctuation '(')
    (hParams : Listed Name ',' ts params) (hClose : c.kind = .punctuation ')')
    (hBody : Spells us body) : Spells (k :: o :: (ts ++ c :: us)) (.lambda params body) := by
  have hSep : ',' ≠ '{' := by decide
  obtain ⟨hNames, hShut⟩ := hParams.spells (f := fun word => [.name word])
    (fun _ _ => Name.spells) hSep
  have hSays : k.kind ≠ .punctuation '{' ∧ k.atom? = some .function := by
    rcases hWord with hWord | hWord <;> simp [hWord, Token.atom?]
  have hBracket : o.kind ≠ .punctuation '{' ∧ c.kind ≠ .punctuation '{' := by
    simp [hOpen, hClose]
  constructor
  · rw [contents_cons hSays.1, contents_mark hOpen (by decide), contents_append hShut,
      contents_mark hClose (by decide), hNames, hBody.atoms, hSays.2, Node.atoms,
      List.map_eq_flatMap]
    rfl
  · exact (shut_singleton hSays.1).append ((shut_singleton hBracket.1).append
      (hShut.append ((shut_singleton hBracket.2).append hBody.shut)))

/-- **A tree says what its tokens say**, in the same order and as often, by whichever derivation
it is a tree of them. -/
theorem Expression.spells {ts : List Token} {n : Node} (h : Expression ts n) : Spells ts n := by
  refine derives_induction (E := Spells) (O := Spells) (P := Spells) ?_ h
  exact {
    chain := by
      intro ts us first n rest hFirst hRest hTree
      obtain ⟨hTail, hShut⟩ := hRest.spells
      refine ⟨?_, hFirst.2.shut.append hShut⟩
      rw [contents_append hFirst.2.shut, hFirst.2.atoms, hTail, hTree.atoms]
    primary := fun hPrimary => hPrimary.2
    call := by
      intro ts us o c callee args hCallee hOpen hArgs hClose
      obtain ⟨hAtoms, hShut⟩ := hArgs.expressions_spell (by decide)
      have hBracket : c.kind ≠ .punctuation '{' := by simp [hClose]
      constructor
      · have hLast : contents [c] = [] := contents_mark hClose (by decide)
        rw [contents_append hCallee.2.shut, contents_mark hOpen (by decide),
          contents_append hShut, hCallee.2.atoms, hAtoms, hLast, List.append_nil, Node.atoms]
      · rw [← List.cons_append, ← List.append_assoc]
        exact shut_concat hBracket
    leaf := leaf_spells
    group := by
      intro ts o c n hOpen hInner hClose
      have hBracket : c.kind ≠ .punctuation '{' := by simp [hClose]
      constructor
      · have hLast : contents [c] = [] := contents_mark hClose (by decide)
        rw [contents_mark hOpen (by decide), contents_append hInner.2.shut, hInner.2.atoms,
          hLast, List.append_nil]
      · exact @shut_concat (o :: ts) c hBracket
    block := block_spells
    conditional := fun hWord hTest hBridge hYes hNo =>
      conditional_spells hWord hTest.2 hBridge hYes.2 hNo
    function := fun hWord hOpen hParams hClose hBody =>
      function_spells hWord hOpen hParams hClose hBody.2 }

/-- A program says what its tokens say. -/
theorem Program.contents_eq {ts : List Token} {n : Node} (h : Program ts n) :
    contents ts = n.atoms := by
  cases h with
  | body hBody =>
    have hSpells := hBody.imp fun _ _ hItem => (⟨hItem, hItem.spells⟩ : Both Expression Spells _ _)
    rw [(hSpells.expressions_spell (by decide)).1, Node.atoms]

end Grammar

end Zaban
