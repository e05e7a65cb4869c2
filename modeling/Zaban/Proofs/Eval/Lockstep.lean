import Zaban.Proofs.Eval.Frames

/-!
# Two runs side by side

Let `R` be a relation between two worlds, `V` a property of values and `F` a
property of frames. A computation is in **lockstep** when two runs of it from
related worlds end alike, with a value or an error of which `V` holds, and in
related worlds again.

Evaluation is built from a handful of **moves**: look a name up, assign to it,
close over a frame, enter a closure, write, read the clock. `Moves` says that
each of them is in lockstep, as long as `F` holds of the frames and `V` of the
values it is given. From this alone `evalNode_lockstep` follows for every
expression, by one induction, and `callWithin_lockstep` for every call, by
another on the calls still allowed.

With equality for `R`, lockstep says that one run keeps an invariant.
-/

namespace Zaban

/-- The property holds of the values that an error speaks of. -/
def EvalError.Within (V : Value → Prop) : EvalError → Prop
  | typeMismatch _ value => V value
  | notCallable value => V value
  | _ => True

/-- The result is as it should be, and so are the values that an error speaks of. -/
def Within {α : Type} (V : Value → Prop) (post : α → Prop) : Except EvalError α → Prop
  | .ok a => post a
  | .error e => e.Within V

/-- What a script asks for and ends with: only values of which the property holds, provided that it
holds of what the calls of the script end with. -/
inductive Script.Handles (V : Value → Prop) : Script → Prop where
  | done {result : Except EvalError Value} (hResult : Within V V result) : Handles V (.done result)
  | call {f : Value} {args : List Value} {next : Except EvalError Value → Script}
      (hFunction : V f) (hArgs : ∀ a ∈ args, V a)
      (hNext : ∀ result, Within V V result → Handles V (next result)) :
      Handles V (.call f args next)
  | write {text : String} {next : Script} (hNext : Handles V next) : Handles V (.write text next)
  | clock {next : Nat → Script} (hNext : ∀ now, Handles V (next now)) : Handles V (.clock next)

/-- Two runs from related worlds end alike and in related worlds. -/
def Lockstep (R : World → World → Prop) (V : Value → Prop) {α : Type} (post : α → Prop)
    (x : EvalM α) : Prop :=
  ∀ w₁ w₂, R w₁ w₂ → (x.runIn w₁).1 = (x.runIn w₂).1 ∧ R (x.runIn w₁).2 (x.runIn w₂).2 ∧
    Within V post (x.runIn w₁).1

section Rules

variable {R : World → World → Prop} {V : Value → Prop} {α β : Type} {post : α → Prop}
  {post' : β → Prop}

theorem Lockstep.pure {a : α} (h : post a) : Lockstep R V post (pure a : EvalM α) := by
  intro w₁ w₂ hR
  exact ⟨rfl, hR, h⟩

theorem Lockstep.throw {e : EvalError} (h : e.Within V) :
    Lockstep R V post (throw e : EvalM α) := by
  intro w₁ w₂ hR
  exact ⟨rfl, hR, h⟩

/-- What follows a computation in lockstep starts from related worlds. -/
theorem Lockstep.bind {x : EvalM α} {f : α → EvalM β} (hx : Lockstep R V post x)
    (hf : ∀ a, post a → Lockstep R V post' (f a)) : Lockstep R V post' (x >>= f) := by
  intro w₁ w₂ hR
  obtain ⟨hSame, hRelated, hWithin⟩ := hx w₁ w₂ hR
  rw [EvalM.runIn_bind, EvalM.runIn_bind]
  rcases hRun₁ : x.runIn w₁ with ⟨r₁, v₁⟩
  rcases hRun₂ : x.runIn w₂ with ⟨r₂, v₂⟩
  rw [hRun₁, hRun₂] at hSame hRelated
  rw [hRun₁] at hWithin
  obtain rfl : r₁ = r₂ := hSame
  cases r₁ with
  | error e => exact ⟨rfl, hRelated, hWithin⟩
  | ok a => exact hf a hWithin v₁ v₂ hRelated

/-- A step that does not look at the world. -/
theorem Lockstep.result {r : Except EvalError α} (h : Within V post r) :
    Lockstep R V post (EvalM.ofStep fun w => (r, w)) := by
  intro w₁ w₂ hR
  exact ⟨rfl, hR, h⟩

end Rules

/-- The moves of an evaluation are in lockstep. -/
structure Moves (R : World → World → Prop) (F : FrameId → Prop) (V : Value → Prop) : Prop where
  plain : ∀ v, (∀ c, v ≠ .closure c) → V v
  look : ∀ {e name}, F e → Lockstep R V V (EvalM.ofStep fun w =>
    match w.store.get? e name with
    | some value => (.ok value, w)
    | none => (.error (.undefinedVariable name), w))
  assign : ∀ {e name v}, F e → V v → Lockstep R V V (EvalM.ofStep fun w => w.assign e name v)
  close : ∀ {e params body}, F e → Lockstep R V V (EvalM.ofStep fun w =>
    let (v, w) := w.close params body e
    (.ok v, w))
  enter : ∀ {c args}, V (.closure c) → (∀ a ∈ args, V a) → Lockstep R V F (enterClosure c args)
  write : ∀ {text}, Lockstep R V (fun _ => True) (EvalM.ofStep fun w => w.write text)
  clock : Lockstep R V (fun _ => True) (EvalM.ofStep fun w =>
    let (now, w) := w.readClock
    (.ok now, w))
  natives : ∀ {w₁ w₂}, R w₁ w₂ → w₁.natives = w₂.natives
  handles : ∀ {w₁ w₂} {i : Nat} {body : NativeBody} {args}, R w₁ w₂ → w₁.natives[i]? = some body →
    (∀ a ∈ args, V a) → (body args).Handles V

theorem Moves.apuz {R : World → World → Prop} {F : FrameId → Prop} {V : Value → Prop}
    (h : Moves R F V) : V .apuz :=
  h.plain (.boolean false) (by rintro _ ⟨⟩)

-- ----------------------------------------------------------------------------
-- Operators
-- ----------------------------------------------------------------------------

section Operators

variable {V : Value → Prop} {α β : Type} {post : α → Prop} {post' : β → Prop}

theorem Within.bind {x : Except EvalError α} {f : α → Except EvalError β}
    (hx : Within V post x) (hf : ∀ a, post a → Within V post' (f a)) :
    Within V post' (x >>= f) := by
  cases x with
  | error e => exact hx
  | ok a => exact hf a hx

theorem operand_within (op : BinaryOp) {v : Value} (h : V v) :
    Within V (fun _ => True) (v.operand op) := by
  cases v with
  | number x => trivial
  | string | boolean | closure | native => exact h

theorem divisor_within (op : BinaryOp) {v : Value} (h : V v) :
    Within V (fun _ => True) (v.divisor op) := by
  refine (operand_within op h).bind ?_
  intro x _
  split
  · trivial
  · trivial

/-- An operator gives one of its operands or a plain value, or refuses an operand. -/
theorem apply_within (hPlain : ∀ v, (∀ c, v ≠ .closure c) → V v) (op : BinaryOp) {l r : Value}
    (hl : V l) (hr : V r) : Within V V (op.apply l r) := by
  have hNumber : ∀ x, V (.number x) := fun x => hPlain _ (by rintro _ ⟨⟩)
  have hBoolean : ∀ b, V (.boolean b) := fun b => hPlain _ (by rintro _ ⟨⟩)
  have hArithmetic : ∀ op f, Within V V (Value.arithmetic op f l r) := fun op f =>
    (operand_within op hl).bind fun _ _ => (operand_within op hr).bind fun _ _ => hNumber _
  have hComparison : ∀ op f, Within V V (Value.comparison op f l r) := fun op f =>
    (operand_within op hl).bind fun _ _ => (operand_within op hr).bind fun _ _ => hBoolean _
  have hDivision : ∀ op f, Within V V (Value.division op f l r) := fun op f =>
    (operand_within op hl).bind fun _ _ => (divisor_within op hr).bind fun _ _ => hNumber _
  cases op with
  | or =>
    show V (if l.isFalse then r else l)
    split
    · exact hr
    · exact hl
  | and =>
    show V (if l.isFalse then .apuz else r)
    split
    · exact hBoolean false
    · exact hr
  | equal | notEqual => exact hBoolean _
  | less | greater | lessEqual | greaterEqual => exact hComparison _ _
  | plus | minus | times => exact hArithmetic _ _
  | divide | modulo => exact hDivision _ _

/-- What an operator gives without its right operand is its left one or the false value. -/
theorem shortcut?_within (hFalse : V .apuz) {op : BinaryOp} {l v : Value} (hl : V l)
    (h : op.shortcut? l = some v) : V v := by
  unfold BinaryOp.shortcut? at h
  split at h
  · split at h
    · rw [← Option.some.inj h]
      exact hFalse
    · cases h
  · split at h
    · cases h
    · rw [← Option.some.inj h]
      exact hl
  · cases h

end Operators

-- ----------------------------------------------------------------------------
-- Expressions
-- ----------------------------------------------------------------------------

section Expressions

variable {R : World → World → Prop} {F : FrameId → Prop} {V : Value → Prop} {call : Caller}
  {env : FrameId}

mutual

/-- **Every expression is in lockstep**, if the moves and the calls are. -/
theorem evalNode_lockstep (hMoves : Moves R F V)
    (hCall : ∀ f args, V f → (∀ a ∈ args, V a) → Lockstep R V V (call f args)) (hEnv : F env) :
    ∀ n, Lockstep R V V (evalNode call env n)
  | .number x => by
    rw [evalNode]
    exact .pure (hMoves.plain _ (by rintro _ ⟨⟩))
  | .string s => by
    rw [evalNode]
    exact .pure (hMoves.plain _ (by rintro _ ⟨⟩))
  | .boolean b => by
    rw [evalNode]
    exact .pure (hMoves.plain _ (by rintro _ ⟨⟩))
  | .var name => by
    rw [evalNode]
    exact hMoves.look hEnv
  | .assignment target value => by
    cases target with
    | var name =>
      rw [evalNode]
      exact (evalNode_lockstep hMoves hCall hEnv value).bind fun v hv => hMoves.assign hEnv hv
    | program | assignment | binary | condition | lambda | call | number | string | boolean =>
      rw [evalNode]
      · exact .throw trivial
      · intro name h
        cases h
  | .binary op left right => by
    rw [evalNode]
    refine (evalNode_lockstep hMoves hCall hEnv left).bind fun l hl => ?_
    split
    · rename_i v hShort
      exact .pure (shortcut?_within hMoves.apuz hl hShort)
    · refine (evalNode_lockstep hMoves hCall hEnv right).bind fun r hr => ?_
      exact .result (apply_within hMoves.plain op hl hr)
  | .condition test yes no => by
    rw [evalNode]
    refine (evalNode_lockstep hMoves hCall hEnv test).bind fun v _ => ?_
    split
    · exact evalElse_lockstep hMoves hCall hEnv no
    · exact evalNode_lockstep hMoves hCall hEnv yes
  | .program body => by
    rw [evalNode]
    exact evalSequence_lockstep hMoves hCall hEnv hMoves.apuz body
  | .lambda params body => by
    rw [evalNode]
    exact hMoves.close hEnv
  | .call callee args => by
    rw [evalNode]
    refine (evalNode_lockstep hMoves hCall hEnv callee).bind fun f hf => ?_
    refine (evalArgs_lockstep hMoves hCall hEnv args).bind fun vs hvs => ?_
    exact hCall f vs hf hvs

theorem evalElse_lockstep (hMoves : Moves R F V)
    (hCall : ∀ f args, V f → (∀ a ∈ args, V a) → Lockstep R V V (call f args)) (hEnv : F env) :
    ∀ no, Lockstep R V V (evalElse call env no)
  | none => by
    rw [evalElse]
    exact .pure hMoves.apuz
  | some n => by
    rw [evalElse]
    exact evalNode_lockstep hMoves hCall hEnv n

theorem evalSequence_lockstep (hMoves : Moves R F V)
    (hCall : ∀ f args, V f → (∀ a ∈ args, V a) → Lockstep R V V (call f args)) (hEnv : F env)
    {last : Value} (hLast : V last) : ∀ ns, Lockstep R V V (evalSequence call env last ns)
  | [] => by
    rw [evalSequence]
    exact .pure hLast
  | n :: ns => by
    rw [evalSequence]
    refine (evalNode_lockstep hMoves hCall hEnv n).bind fun v hv => ?_
    exact evalSequence_lockstep hMoves hCall hEnv hv ns

theorem evalArgs_lockstep (hMoves : Moves R F V)
    (hCall : ∀ f args, V f → (∀ a ∈ args, V a) → Lockstep R V V (call f args)) (hEnv : F env) :
    ∀ ns, Lockstep R V (fun vs => ∀ v ∈ vs, V v) (evalArgs call env ns)
  | [] => by
    rw [evalArgs]
    exact .pure (List.forall_mem_nil _)
  | n :: ns => by
    rw [evalArgs]
    refine (evalNode_lockstep hMoves hCall hEnv n).bind fun v hv => ?_
    refine (evalArgs_lockstep hMoves hCall hEnv ns).bind fun vs hvs => ?_
    exact .pure (List.forall_mem_cons.mpr ⟨hv, hvs⟩)

end

end Expressions

-- ----------------------------------------------------------------------------
-- Calls
-- ----------------------------------------------------------------------------

section Calls

variable {R : World → World → Prop} {F : FrameId → Prop} {V : Value → Prop} {call : Caller}

/-- A script whose values are as they should be is in lockstep, if the calls are. -/
theorem runScript_lockstep (hMoves : Moves R F V)
    (hCall : ∀ f args, V f → (∀ a ∈ args, V a) → Lockstep R V V (call f args)) {script : Script}
    (h : script.Handles V) : Lockstep R V V (runScript call script) := by
  induction h with
  | done hResult =>
    rw [runScript]
    exact .result hResult
  | @call f args next hFunction hArgs _ ih =>
    rw [runScript]
    intro w₁ w₂ hR
    obtain ⟨hSame, hRelated, hWithin⟩ := hCall f args hFunction hArgs w₁ w₂ hR
    have hNext := ih _ hWithin _ _ hRelated
    rw [hSame] at hNext
    simp only [EvalM.runIn_ofStep, hSame]
    exact hNext
  | write _ ih =>
    rw [runScript]
    exact hMoves.write.bind fun _ _ => ih
  | clock _ ih =>
    rw [runScript]
    exact hMoves.clock.bind fun now _ => ih now

/-- **Every call is in lockstep**, if the moves are. -/
theorem callWithin_lockstep (hMoves : Moves R F V) (limit remaining : Nat) :
    ∀ f args, V f → (∀ a ∈ args, V a) → Lockstep R V V (callWithin limit remaining f args) := by
  induction remaining with
  | zero =>
    intro f args hf _
    rw [callWithin]
    refine .throw ?_
    split
    · trivial
    · exact hf
  | succ remaining ih =>
    intro f args hf hArgs
    cases f with
    | closure c =>
      rw [callWithin]
      refine (hMoves.enter hf hArgs).bind fun scope hScope => ?_
      exact evalNode_lockstep hMoves ih hScope c.body
    | native n =>
      rw [callWithin]
      intro w₁ w₂ hR
      simp only [EvalM.runIn_ofStep, ← hMoves.natives hR]
      split
      · rename_i body hBody
        exact runScript_lockstep hMoves ih (hMoves.handles hR hBody hArgs) w₁ w₂ hR
      · exact ⟨rfl, hR, hf⟩
    | number | string | boolean =>
      rw [callWithin]
      · exact .throw hf
      all_goals
        intro x h
        cases h

end Calls

end Zaban
