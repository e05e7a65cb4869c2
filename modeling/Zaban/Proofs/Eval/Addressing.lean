import Zaban.Proofs.Eval.Chains
import Zaban.Proofs.Eval.Lockstep

/-!
# Lexical addressing

The machine that resolves names in advance and the evaluator that searches for
them do the same, in every session. The invariant is that the machine is
**lexical**: wherever a closure is bound, the machine knows the code of its
body, and the chain of the frame that the closure captured has the shape of
the nest of the function it came from. It is kept by every step, as the store
only grows (`Chain.mono`), and it makes the search for a name end at its
address (`Chain.binder?_eq`).

`Mirrors` relates one computation of the evaluator and one of the machine. An
expression is mirrored by its code (`evalNode_mirrors`), by induction on the
expression, and a call by a call (`callWithin_mirrors`), by induction on the
calls still allowed.
-/

namespace Zaban

/-- At the visit the chain has the shape of the nest, so that every name is found and changed at its
address, and in a function a global name that the root does not bind cannot be changed. -/
structure Visit.Lexical (ps : Node → Prop) (root : FrameId) (v : Visit) : Prop where
  occurs : ∃ n, Occurs ps v.nest n ∧ v.code = n.addressed v.nest
  chain : Chain v.world.store root v.env v.nest
  reads : ∀ x, v.world.store.binder? v.env x =
    v.world.store.readPlace root v.env x (.of x v.nest)
  writes : ∀ x, v.world.store.target? v.env x =
    v.world.store.writePlace root v.env x (!v.nest.isEmpty) (.of x v.nest)
  refuses : ∀ x value, v.nest ≠ [] → (∀ params ∈ v.nest, x ∉ params) →
    v.world.store.bindsAt root x = false →
    v.world.assign v.env x value = (.error (.undefinedVariable x), v.world)

theorem of_eq_global {x : String} {nest : Nest} (h : ∀ params ∈ nest, x ∉ params) :
    Address.of x nest = .global := by
  induction nest with
  | nil => rfl
  | cons params nest ih =>
    have hHead : x ∉ params := h params List.mem_cons_self
    have hTail := ih fun ps hps => h ps (List.mem_cons_of_mem _ hps)
    rw [Address.of, if_neg hHead, hTail]
    rfl

theorem Chain.lexical {ps : Node → Prop} {root env : FrameId} {nest : Nest} {n : Node} {w : World}
    (h : Chain w.store root env nest) (hOccurs : Occurs ps nest n) :
    Visit.Lexical ps root ⟨nest, n.addressed nest, env, w⟩ where
  occurs := ⟨n, hOccurs, rfl⟩
  chain := h
  reads := h.binder?_eq
  writes := h.target?_eq
  refuses x value hInside hFree hUnbound := by
    have hNest : nest.isEmpty = false := by simpa using hInside
    have hTarget : w.store.target? env x = none := by
      rw [h.target?_eq x, of_eq_global hFree, Store.writePlace, hUnbound, hNest]
      rfl
    show w.assign env x value = _
    unfold World.assign
    rw [hTarget]

-- ----------------------------------------------------------------------------
-- The invariant
-- ----------------------------------------------------------------------------

/-- If the value is a closure, the machine has its body as code, resolved in the nest whose shape
the chain of the captured frame has. -/
def Known (ps : Node → Prop) (root : FrameId) (m : Machine) (v : Value) : Prop :=
  ∀ c, v = .closure c → ∃ nest,
    m.entries[c.id]? = some ⟨c.params :: nest, c.body.addressed (c.params :: nest)⟩ ∧
      Occurs ps (c.params :: nest) c.body ∧ Chain m.world.store root c.env nest

structure Machine.Lexical (ps : Node → Prop) (root : FrameId) (m : Machine) : Prop where
  size    : m.entries.size = m.world.nextClosure
  natives : m.world.natives = #[Script.wan, Script.time]
  base    : Chain m.world.store root root []
  bound   : ∀ {e f x v}, m.world.store.frame? e = some f → (x, v) ∈ f.bindings → Known ps root m v
  visits  : ∀ v ∈ m.visits, v.Lexical ps root

/-- The machine forgets no closure, and its store grows. -/
structure Machine.Grows (m m' : Machine) : Prop where
  entries : ∀ {i : Nat} {entry}, m.entries[i]? = some entry → m'.entries[i]? = some entry
  store   : m.world.store.Grows m'.world.store

section Invariant

variable {ps : Node → Prop} {root : FrameId} {m m' m'' : Machine} {v : Value}

theorem Machine.Grows.refl (m : Machine) : m.Grows m :=
  ⟨fun h => h, .refl _⟩

theorem Machine.Grows.trans (h : m.Grows m') (h' : m'.Grows m'') : m.Grows m'' :=
  ⟨fun hEntry => h'.entries (h.entries hEntry), h.store.trans h'.store⟩

theorem Known.mono (h : Known ps root m v) (hGrows : m.Grows m') : Known ps root m' v := by
  intro c hc
  obtain ⟨nest, hEntry, hOccurs, hChain⟩ := h c hc
  exact ⟨nest, hGrows.entries hEntry, hOccurs, hChain.mono hGrows.store⟩

theorem known_of_ne_closure (h : ∀ c, v ≠ .closure c) : Known ps root m v :=
  fun c hc => absurd hc (h c)

theorem known_apuz : Known ps root m .apuz :=
  known_of_ne_closure (by rintro _ ⟨⟩)

/-- A change of the world that lets the store grow and binds only known values keeps the
invariant. -/
theorem Machine.Lexical.withWorld (h : m.Lexical ps root) {w : World}
    (hGrows : m.world.store.Grows w.store) (hClosures : w.nextClosure = m.world.nextClosure)
    (hNatives : w.natives = m.world.natives)
    (hBound : ∀ e f x v, w.store.frame? e = some f → (x, v) ∈ f.bindings → Known ps root m v) :
    Machine.Lexical ps root { m with world := w } ∧ m.Grows { m with world := w } := by
  have hMachine : m.Grows { m with world := w } := ⟨fun hEntry => hEntry, hGrows⟩
  refine ⟨?_, hMachine⟩
  constructor
  · exact h.size.trans hClosures.symm
  · exact hNatives.trans h.natives
  · exact h.base.mono hGrows
  · intro e f x v hFrame hIn
    exact (hBound e f x v hFrame hIn).mono hMachine
  · exact h.visits

theorem Machine.Lexical.define (h : m.Lexical ps root) {env t : FrameId} {name : String}
    (hTarget : m.world.store.target? env name = some t) (hv : Known ps root m v) :
    Machine.Lexical ps root { m with world := m.world.define t name v } ∧
      m.Grows { m with world := m.world.define t name v } := by
  refine h.withWorld ?_ rfl rfl ?_
  · exact Store.grows_define (target?_bindsAt_or_isRoot hTarget) v
  · intro e f x u hFrame hIn
    change (m.world.store.define t name v).frame? e = some f at hFrame
    rw [Store.frame?_define] at hFrame
    split at hFrame
    · obtain ⟨g, hg, rfl⟩ := Option.map_eq_some_iff.mp hFrame
      rcases Frame.mem_bind hIn with rfl | hOld
      · exact hv
      · exact h.bound hg hOld
    · exact h.bound hFrame hIn

theorem Machine.Lexical.enter (h : m.Lexical ps root) (c : Closure) {args : List Value}
    (hArgs : ∀ a ∈ args, Known ps root m a) :
    let w := (m.world.addFrame ⟨bindParams [] c.params args, some c.env⟩).2
    Machine.Lexical ps root { m with world := w } ∧ m.Grows { m with world := w } := by
  refine h.withWorld (Store.grows_add _ _) rfl rfl ?_
  intro e f x v hFrame hIn
  change (m.world.store.add _).frame? e = some f at hFrame
  rw [Store.frame?_add] at hFrame
  split at hFrame
  · obtain rfl := Option.some.inj hFrame
    rcases mem_bindParams hIn with hArg | rfl | hNone
    · exact hArgs v hArg
    · exact known_apuz
    · cases hNone
  · exact h.bound hFrame hIn

/-- A new closure is known by the code that its function became. -/
theorem Machine.Lexical.close (h : m.Lexical ps root) {env : FrameId} {nest : Nest}
    (hChain : Chain m.world.store root env nest) {params : List String} {body : Node}
    (hOccurs : Occurs ps nest (.lambda params body)) :
    let m' : Machine := { m with
      world := (m.world.close params body env).2
      entries := m.entries.push ⟨params :: nest, body.addressed (params :: nest)⟩ }
    m'.Lexical ps root ∧ m.Grows m' ∧ Known ps root m' (m.world.close params body env).1 := by
  intro m'
  have hGrows : m.Grows m' := by
    refine ⟨?_, .refl _⟩
    intro i entry hEntry
    have hOld : i < m.entries.size := (Array.getElem?_eq_some_iff.mp hEntry).1
    show (m.entries.push _)[i]? = some entry
    rw [Array.getElem?_push_lt hOld, ← hEntry, Array.getElem?_eq_getElem hOld]
  refine ⟨?_, hGrows, ?_⟩
  · constructor
    · show (m.entries.push _).size = m.world.nextClosure + 1
      rw [Array.size_push, h.size]
    · exact h.natives
    · exact h.base
    · intro e f x v hFrame hIn
      exact (h.bound hFrame hIn).mono hGrows
    · exact h.visits
  · intro c hc
    obtain rfl := Value.closure.inj hc
    refine ⟨nest, ?_, .body hOccurs, hChain⟩
    show (m.entries.push _)[m.world.nextClosure]? = some _
    rw [← h.size, Array.getElem?_push_size]

theorem Machine.Lexical.visited (h : m.Lexical ps root) {env : FrameId} {nest : Nest} {n : Node}
    (hChain : Chain m.world.store root env nest) (hOccurs : Occurs ps nest n) :
    Machine.Lexical ps root
      { m with visits := ⟨nest, n.addressed nest, env, m.world⟩ :: m.visits } where
  size := h.size
  natives := h.natives
  base := h.base
  bound hFrame hIn := h.bound hFrame hIn
  visits := List.forall_mem_cons.mpr ⟨hChain.lexical hOccurs, h.visits⟩

end Invariant

-- ----------------------------------------------------------------------------
-- Mirrored computations
-- ----------------------------------------------------------------------------

/-- The machine, run from `m`, ends as the evaluator does in the world of `m` and in the same world,
and is lexical again. -/
def Mirrors (ps : Node → Prop) (root : FrameId) (m : Machine) {α : Type}
    (post : Machine → α → Prop) (x : EvalM α) (y : MachineM α) : Prop :=
  ∃ r m', y.runIn m = (r, m') ∧ x.runIn m.world = (r, m'.world) ∧ m'.Lexical ps root ∧ m.Grows m' ∧
    ∀ a, r = .ok a → post m' a

section Rules

variable {ps : Node → Prop} {root : FrameId} {m : Machine} {α β : Type} {post : Machine → α → Prop}
  {post' : Machine → β → Prop} {x : EvalM α} {y : MachineM α}

theorem Mirrors.pure {a : α} (h : m.Lexical ps root) (hPost : post m a) :
    Mirrors ps root m post (pure a) (pure a) :=
  ⟨.ok a, m, rfl, rfl, h, .refl m, fun _ ha => Except.ok.inj ha ▸ hPost⟩

theorem Mirrors.throw (h : m.Lexical ps root) (e : EvalError) :
    Mirrors ps root m post (throw e) (throw e) :=
  ⟨.error e, m, rfl, rfl, h, .refl m, by rintro _ ⟨⟩⟩

theorem Mirrors.bind {f : α → EvalM β} {g : α → MachineM β} (hx : Mirrors ps root m post x y)
    (hf : ∀ a m', m'.Lexical ps root → m.Grows m' → post m' a →
      Mirrors ps root m' post' (f a) (g a)) :
    Mirrors ps root m post' (x >>= f) (y >>= g) := by
  obtain ⟨r, m', hMachine, hWorld, hLexical, hGrows, hPost⟩ := hx
  unfold Mirrors
  rw [EvalM.runIn_bind, MachineM.runIn_bind, hMachine, hWorld]
  cases r with
  | error e => exact ⟨.error e, m', rfl, rfl, hLexical, hGrows, by rintro _ ⟨⟩⟩
  | ok a =>
    obtain ⟨r', m'', hMachine', hWorld', hLexical', hGrows', hPost'⟩ :=
      hf a m' hLexical hGrows (hPost a rfl)
    exact ⟨r', m'', hMachine', hWorld', hLexical', hGrows.trans hGrows', hPost'⟩

/-- A visit changes nothing that the evaluator sees. -/
theorem Mirrors.visit {env : FrameId} {nest : Nest} {n : Node} {code : Code}
    (h : m.Lexical ps root) (hChain : Chain m.world.store root env nest)
    (hOccurs : Occurs ps nest n) (hCode : n.addressed nest = code)
    (hNext : ∀ m', m'.Lexical ps root → m'.world = m.world → m.Grows m' →
      Mirrors ps root m' post x y) :
    Mirrors ps root m post x (MachineM.visit nest code env >>= fun _ => y) := by
  subst hCode
  have hGrows : m.Grows { m with visits := ⟨nest, n.addressed nest, env, m.world⟩ :: m.visits } :=
    ⟨fun hEntry => hEntry, .refl _⟩
  obtain ⟨r, m', hMachine, hWorld, hLexical, hGrows', hPost⟩ :=
    hNext _ (h.visited hChain hOccurs) rfl hGrows
  exact ⟨r, m', hMachine, hWorld, hLexical, hGrows.trans hGrows', hPost⟩

/-- The machine does to the world what the evaluator does. -/
theorem Mirrors.lift {x' : EvalM α} {r : Except EvalError α} {w : World}
    (hRun : x.runIn m.world = (r, w)) (hRun' : x'.runIn m.world = (r, w))
    (hAfter : Machine.Lexical ps root { m with world := w } ∧ m.Grows { m with world := w })
    (hPost : ∀ a, r = .ok a → post { m with world := w } a) :
    Mirrors ps root m post x (MachineM.lift x') := by
  refine ⟨r, { m with world := w }, ?_, hRun, hAfter.1, hAfter.2, hPost⟩
  rw [MachineM.lift, MachineM.runIn_ofStep, hRun']

/-- A step that leaves the world as it is. -/
theorem Mirrors.result {r : Except EvalError α} (h : m.Lexical ps root)
    (hPost : ∀ a, r = .ok a → post m a) :
    Mirrors ps root m post (EvalM.ofStep fun w => (r, w))
      (MachineM.lift (EvalM.ofStep fun w => (r, w))) :=
  .lift rfl rfl ⟨h, .refl m⟩ hPost

end Rules

-- ----------------------------------------------------------------------------
-- Expressions
-- ----------------------------------------------------------------------------

/-- The calls of the machine mirror those of the evaluator. -/
def CallsMirror (ps : Node → Prop) (root : FrameId) (call : Caller) (call' : MachineCaller) :
    Prop :=
  ∀ m f args, Machine.Lexical ps root m → Known ps root m f → (∀ a ∈ args, Known ps root m a) →
    Mirrors ps root m (Known ps root) (call f args) (call' f args)

section Expressions

variable {ps : Node → Prop} {root : FrameId} {call : Caller} {call' : MachineCaller}
  {env : FrameId} {nest : Nest} {m : Machine}

theorem read_mirrors (h : m.Lexical ps root) (hChain : Chain m.world.store root env nest)
    {name : String} (hOccurs : Occurs ps nest (.var name)) :
    Mirrors ps root m (Known ps root) (evalNode call env (.var name))
      (evalCode call' root nest env ((Node.var name).addressed nest)) := by
  rw [evalNode, Node.addressed, evalCode]
  refine .visit h hChain hOccurs rfl fun m' h' hSame _ => ?_
  have hGet : m'.world.store.get? env name =
      (m'.world.store.readPlace root env name (.of name nest)).bind fun e =>
        (m'.world.store.frame? e).bind (·.get? name) := by
    rw [Store.get?, hSame, hChain.binder?_eq name]
  cases hValue : m'.world.store.get? env name with
  | none =>
    refine .lift (r := .error (.undefinedVariable name)) (w := m'.world) ?_ ?_ ⟨h', .refl m'⟩ ?_
    · simp only [EvalM.runIn_ofStep, hValue]
    · simp only [EvalM.runIn_ofStep, ← hGet, hValue]
    · intro v hv
      cases hv
  | some u =>
    obtain ⟨b, hb, hFound⟩ := Option.bind_eq_some_iff.mp hValue
    obtain ⟨f, hFrame, hLookup⟩ := Option.bind_eq_some_iff.mp hFound
    have hKnown := h'.bound hFrame (Frame.mem_of_lookup hLookup)
    refine .lift (r := .ok u) (w := m'.world) ?_ ?_ ⟨h', .refl m'⟩ ?_
    · simp only [EvalM.runIn_ofStep, hValue]
    · simp only [EvalM.runIn_ofStep, ← hGet, hValue]
    · intro v hv
      exact Except.ok.inj hv ▸ hKnown

theorem write_mirrors (h : m.Lexical ps root) (hChain : Chain m.world.store root env nest)
    (name : String) {v : Value} (hv : Known ps root m v) :
    Mirrors ps root m (Known ps root) (EvalM.ofStep fun w => w.assign env name v)
      (MachineM.lift (EvalM.ofStep fun w =>
        match w.store.writePlace root env name (!nest.isEmpty) (.of name nest) with
        | some e => (.ok v, w.define e name v)
        | none => (.error (.undefinedVariable name), w))) := by
  have hTarget := hChain.target?_eq name
  cases hPlace : m.world.store.target? env name with
  | none =>
    refine .lift (r := .error (.undefinedVariable name)) (w := m.world) ?_ ?_ ⟨h, .refl m⟩ ?_
    · simp only [EvalM.runIn_ofStep, World.assign, hPlace]
    · simp only [EvalM.runIn_ofStep, ← hTarget, hPlace]
    · intro a ha
      cases ha
  | some t =>
    have hAfter := h.define hPlace hv
    refine .lift (r := .ok v) (w := m.world.define t name v) ?_ ?_ hAfter ?_
    · simp only [EvalM.runIn_ofStep, World.assign, hPlace]
    · simp only [EvalM.runIn_ofStep, ← hTarget, hPlace]
    · intro a ha
      exact Except.ok.inj ha ▸ hv.mono hAfter.2

theorem function_mirrors (h : m.Lexical ps root) (hChain : Chain m.world.store root env nest)
    {params : List String} {body : Node} (hOccurs : Occurs ps nest (.lambda params body)) :
    Mirrors ps root m (Known ps root) (evalNode call env (.lambda params body))
      (evalCode call' root nest env ((Node.lambda params body).addressed nest)) := by
  rw [evalNode, Node.addressed, evalCode]
  refine .visit h hChain hOccurs rfl fun m' h' hSame _ => ?_
  obtain ⟨hLexical, hGrows, hKnown⟩ := h'.close (hSame ▸ hChain) hOccurs
  exact ⟨_, _, rfl, rfl, hLexical, hGrows, fun v hv => Except.ok.inj hv ▸ hKnown⟩

-- The induction is on the expression; the machine is arbitrary, since it has moved on when a part
-- of the expression is reached.
mutual

/-- **An expression is mirrored by its code.** -/
theorem evalNode_mirrors (hCall : CallsMirror ps root call call') :
    ∀ {n : Node} {m : Machine}, Occurs ps nest n → m.Lexical ps root →
      Chain m.world.store root env nest →
      Mirrors ps root m (Known ps root) (evalNode call env n)
        (evalCode call' root nest env (n.addressed nest))
  | .number x, m, hOccurs, h, hChain => by
    rw [evalNode, Node.addressed, evalCode]
    refine .visit h hChain hOccurs rfl fun m' h' _ _ => ?_
    exact .pure h' (known_of_ne_closure (by rintro _ ⟨⟩))
  | .string x, m, hOccurs, h, hChain => by
    rw [evalNode, Node.addressed, evalCode]
    refine .visit h hChain hOccurs rfl fun m' h' _ _ => ?_
    exact .pure h' (known_of_ne_closure (by rintro _ ⟨⟩))
  | .boolean x, m, hOccurs, h, hChain => by
    rw [evalNode, Node.addressed, evalCode]
    refine .visit h hChain hOccurs rfl fun m' h' _ _ => ?_
    exact .pure h' (known_of_ne_closure (by rintro _ ⟨⟩))
  | .var name, m, hOccurs, h, hChain => read_mirrors h hChain hOccurs
  | .assignment target value, m, hOccurs, h, hChain => by
    cases target with
    | var name =>
      rw [evalNode, Node.addressed, evalCode]
      refine .visit h hChain hOccurs rfl fun m' h' hSame _ => ?_
      have hChain' : Chain m'.world.store root env nest := hSame ▸ hChain
      refine (evalNode_mirrors hCall hOccurs.value h' hChain').bind fun v m'' h'' hGrows hv => ?_
      have hChain'' := hChain'.mono hGrows.store
      refine .visit h'' hChain'' hOccurs rfl fun m₃ h₃ hSame₃ hGrows₃ => ?_
      exact write_mirrors h₃ (hSame₃ ▸ hChain'') name (hv.mono hGrows₃)
    | program | assignment | binary | condition | lambda | call | number | string | boolean =>
      rw [evalNode, Node.addressed, evalCode]
      · refine .visit h hChain hOccurs rfl fun m' h' _ _ => ?_
        exact .throw h' _
      all_goals
        intro name hEq
        cases hEq
  | .binary op left right, m, hOccurs, h, hChain => by
    rw [evalNode, Node.addressed, evalCode]
    refine .visit h hChain hOccurs rfl fun m₀ h₀ hSame _ => ?_
    have hChain₀ : Chain m₀.world.store root env nest := hSame ▸ hChain
    refine (evalNode_mirrors hCall hOccurs.left h₀ hChain₀).bind fun l m₁ h₁ hGrows₁ hl => ?_
    cases hShort : op.shortcut? l with
    | some v => exact .pure h₁ (shortcut?_within known_apuz hl hShort)
    | none =>
      have hChain₁ := hChain₀.mono hGrows₁.store
      refine (evalNode_mirrors hCall hOccurs.right h₁ hChain₁).bind fun r m₂ h₂ hGrows₂ hr => ?_
      refine .result h₂ fun v hv => ?_
      have hWithin := apply_within (fun u hu => known_of_ne_closure hu) op (hl.mono hGrows₂) hr
      rw [hv] at hWithin
      exact hWithin
  | .condition test yes no, m, hOccurs, h, hChain => by
    rw [evalNode, Node.addressed, evalCode]
    refine .visit h hChain hOccurs rfl fun m₀ h₀ hSame _ => ?_
    have hChain₀ : Chain m₀.world.store root env nest := hSame ▸ hChain
    refine (evalNode_mirrors hCall hOccurs.test h₀ hChain₀).bind fun v m₁ h₁ hGrows _ => ?_
    have hChain₁ := hChain₀.mono hGrows.store
    split
    · exact evalElse_mirrors hCall (fun n hn => (hn ▸ hOccurs).no) h₁ hChain₁
    · exact evalNode_mirrors hCall hOccurs.yes h₁ hChain₁
  | .program body, m, hOccurs, h, hChain => by
    rw [evalNode, Node.addressed, evalCode]
    refine .visit h hChain hOccurs rfl fun m₀ h₀ hSame _ => ?_
    exact evalSequence_mirrors hCall (fun n hn => hOccurs.item hn) h₀ (hSame ▸ hChain) known_apuz
  | .lambda params body, m, hOccurs, h, hChain => function_mirrors h hChain hOccurs
  | .call callee args, m, hOccurs, h, hChain => by
    rw [evalNode, Node.addressed, evalCode]
    refine .visit h hChain hOccurs rfl fun m₀ h₀ hSame _ => ?_
    have hChain₀ : Chain m₀.world.store root env nest := hSame ▸ hChain
    refine (evalNode_mirrors hCall hOccurs.callee h₀ hChain₀).bind fun f m₁ h₁ hGrows₁ hf => ?_
    have hChain₁ := hChain₀.mono hGrows₁.store
    have hArgs := evalArgs_mirrors hCall (fun n hn => hOccurs.arg hn) h₁ hChain₁
    refine hArgs.bind fun vs m₂ h₂ hGrows₂ hvs => ?_
    exact hCall m₂ f vs h₂ (hf.mono hGrows₂) hvs

theorem evalElse_mirrors (hCall : CallsMirror ps root call call') :
    ∀ {no : Option Node} {m : Machine}, (∀ n, no = some n → Occurs ps nest n) →
      m.Lexical ps root → Chain m.world.store root env nest →
      Mirrors ps root m (Known ps root) (evalElse call env no)
        (evalCodeElse call' root nest env (addressedElse nest no))
  | none, m, hOccurs, h, hChain => by
    rw [evalElse, addressedElse, evalCodeElse]
    exact .pure h known_apuz
  | some n, m, hOccurs, h, hChain => by
    rw [evalElse, addressedElse, evalCodeElse]
    exact evalNode_mirrors hCall (hOccurs n rfl) h hChain

theorem evalSequence_mirrors (hCall : CallsMirror ps root call call') :
    ∀ {ns : List Node} {m : Machine} {last : Value}, (∀ n ∈ ns, Occurs ps nest n) →
      m.Lexical ps root → Chain m.world.store root env nest → Known ps root m last →
      Mirrors ps root m (Known ps root) (evalSequence call env last ns)
        (evalCodes call' root nest env last (addressedAll nest ns))
  | [], m, last, hOccurs, h, hChain, hLast => by
    rw [evalSequence, addressedAll, evalCodes]
    exact .pure h hLast
  | n :: ns, m, last, hOccurs, h, hChain, hLast => by
    rw [evalSequence, addressedAll, evalCodes]
    obtain ⟨hHead, hTail⟩ := List.forall_mem_cons.mp hOccurs
    refine (evalNode_mirrors hCall hHead h hChain).bind fun v m' h' hGrows hv => ?_
    exact evalSequence_mirrors hCall hTail h' (hChain.mono hGrows.store) hv

theorem evalArgs_mirrors (hCall : CallsMirror ps root call call') :
    ∀ {ns : List Node} {m : Machine}, (∀ n ∈ ns, Occurs ps nest n) → m.Lexical ps root →
      Chain m.world.store root env nest →
      Mirrors ps root m (fun m vs => ∀ v ∈ vs, Known ps root m v) (evalArgs call env ns)
        (evalCodeArgs call' root nest env (addressedAll nest ns))
  | [], m, hOccurs, h, hChain => by
    rw [evalArgs, addressedAll, evalCodeArgs]
    exact .pure h (List.forall_mem_nil _)
  | n :: ns, m, hOccurs, h, hChain => by
    rw [evalArgs, addressedAll, evalCodeArgs]
    obtain ⟨hHead, hTail⟩ := List.forall_mem_cons.mp hOccurs
    refine (evalNode_mirrors hCall hHead h hChain).bind fun v m₁ h₁ hGrows₁ hv => ?_
    have hChain₁ := hChain.mono hGrows₁.store
    refine (evalArgs_mirrors hCall hTail h₁ hChain₁).bind fun vs m₂ h₂ hGrows₂ hvs => ?_
    exact .pure h₂ (List.forall_mem_cons.mpr ⟨hv.mono hGrows₂, hvs⟩)

end

end Expressions

-- ----------------------------------------------------------------------------
-- Calls
-- ----------------------------------------------------------------------------

section Scripts

variable {ps : Node → Prop} {root : FrameId} {call : Caller} {call' : MachineCaller} {m : Machine}

theorem write_snd (w : World) (text : String) :
    (w.write text).2 = { w with sink := (w.sink.write text).2 } := by
  unfold World.write
  rcases w.sink.write text with ⟨refusal, sink⟩
  cases refusal with
  | none => rfl
  | some reason => rfl

theorem write_step (h : m.Lexical ps root) (text : String) :
    Mirrors ps root m (fun _ _ => True) (EvalM.ofStep fun w => w.write text)
      (MachineM.lift (EvalM.ofStep fun w => w.write text)) := by
  refine .lift (w := (m.world.write text).2) rfl rfl ?_ fun _ _ => trivial
  rw [write_snd]
  exact h.withWorld (.refl _) rfl rfl fun _ _ _ _ => h.bound

theorem clock_step (h : m.Lexical ps root) :
    Mirrors ps root m (fun _ _ => True)
      (EvalM.ofStep fun w =>
        let (now, w) := w.readClock
        (.ok now, w))
      (MachineM.lift (EvalM.ofStep fun w =>
        let (now, w) := w.readClock
        (.ok now, w))) :=
  .lift rfl rfl (h.withWorld (.refl _) rfl rfl fun _ _ _ _ => h.bound) fun _ _ => trivial

theorem wan_mirrors (h : m.Lexical ps root) (args : List Value) :
    Mirrors ps root m (Known ps root) (runScript call (Script.wan args))
      (playScript call' (Script.wan args)) := by
  rw [Script.wan, runScript, playScript]
  refine (write_step h _).bind fun _ m' h' _ _ => ?_
  rw [runScript, playScript]
  exact .result h' fun v hv => Except.ok.inj hv ▸ known_apuz

/-- A script goes on after its call however the call ended. -/
theorem Mirrors.thenScript {f : Value} {args : List Value}
    {next : Except EvalError Value → Script}
    (hx : Mirrors ps root m (Known ps root) (call f args) (call' f args))
    (hNext : ∀ r m', m'.Lexical ps root → m.Grows m' → (∀ v, r = .ok v → Known ps root m' v) →
      Mirrors ps root m' (Known ps root) (runScript call (next r)) (playScript call' (next r))) :
    Mirrors ps root m (Known ps root) (runScript call (.call f args next))
      (playScript call' (.call f args next)) := by
  obtain ⟨r, m', hMachine, hWorld, h', hGrows, hPost⟩ := hx
  obtain ⟨r', m'', hMachine', hWorld', h'', hGrows', hPost'⟩ := hNext r m' h' hGrows hPost
  refine ⟨r', m'', ?_, ?_, h'', hGrows.trans hGrows', hPost'⟩
  · rw [playScript, MachineM.runIn_ofStep, hMachine]
    exact hMachine'
  · rw [runScript, EvalM.runIn_ofStep, hWorld]
    exact hWorld'

/-- What `time` ends with is what the call of its argument ended with. -/
theorem time_mirrors (hCall : CallsMirror ps root call call') (h : m.Lexical ps root)
    {args : List Value} (hArgs : ∀ a ∈ args, Known ps root m a) :
    Mirrors ps root m (Known ps root) (runScript call (Script.time args))
      (playScript call' (Script.time args)) := by
  have hFirst : Known ps root m (Script.firstArg args) := by
    cases args with
    | nil => exact known_apuz
    | cons a as => exact hArgs a List.mem_cons_self
  rw [Script.time, runScript, playScript]
  refine (clock_step h).bind fun started m₁ h₁ hGrows₁ _ => ?_
  have hCalled := hCall m₁ _ [] h₁ (hFirst.mono hGrows₁) (List.forall_mem_nil _)
  refine hCalled.thenScript fun r m₂ h₂ hGrows₂ hKnown => ?_
  rw [runScript, playScript]
  refine (clock_step h₂).bind fun ended m₃ h₃ hGrows₃ _ => ?_
  rw [runScript, playScript]
  refine (write_step h₃ _).bind fun _ m₄ h₄ hGrows₄ _ => ?_
  rw [runScript, playScript]
  exact .result h₄ fun v hv => ((hKnown v hv).mono hGrows₃).mono hGrows₄

end Scripts

section Calls

variable {ps : Node → Prop} {root : FrameId} {m : Machine} {limit remaining : Nat}
  {args : List Value}

/-- The machine runs the code of the body, in the nest in which it was resolved. -/
theorem closure_mirrors
    (hCall : CallsMirror ps root (callWithin limit remaining) (callCode root limit remaining))
    (h : m.Lexical ps root) {c : Closure} (hc : Known ps root m (.closure c))
    (hArgs : ∀ a ∈ args, Known ps root m a) :
    Mirrors ps root m (Known ps root) (callWithin limit (remaining + 1) (.closure c) args)
      (callCode root limit (remaining + 1) (.closure c) args) := by
  obtain ⟨nest, hEntry, hOccurs, hChain⟩ := hc c rfl
  obtain ⟨hLexical, hGrows⟩ := h.enter c hArgs
  obtain ⟨r, m', hMachine, hWorld, h', hGrows', hPost⟩ :=
    evalNode_mirrors hCall hOccurs hLexical (hChain.enter c.params args)
  have hKnown : (entryOf c).runIn m =
      (.ok ⟨c.params :: nest, c.body.addressed (c.params :: nest)⟩, m) := by
    rw [entryOf, MachineM.runIn_ofStep, hEntry]
  refine ⟨r, m', ?_, ?_, h', hGrows.trans hGrows', hPost⟩
  · rw [callCode, MachineM.runIn_bind, hKnown]
    exact hMachine
  · rw [callWithin]
    exact hWorld

theorem native_mirrors
    (hCall : CallsMirror ps root (callWithin limit remaining) (callCode root limit remaining))
    (h : m.Lexical ps root) (n : Native) (hArgs : ∀ a ∈ args, Known ps root m a) :
    Mirrors ps root m (Known ps root) (callWithin limit (remaining + 1) (.native n) args)
      (callCode root limit (remaining + 1) (.native n) args) := by
  cases hBody : m.world.natives[n.id]? with
  | none =>
    refine ⟨.error (.notCallable (.native n)), m, ?_, ?_, h, .refl m, by rintro _ ⟨⟩⟩
    · rw [callCode, MachineM.runIn_ofStep, hBody]
    · rw [callWithin, EvalM.runIn_ofStep, hBody]
  | some body =>
    have hOne : body = Script.wan ∨ body = Script.time := by
      have hMem := Array.mem_of_getElem? hBody
      rw [h.natives] at hMem
      simpa using hMem
    have hScript : Mirrors ps root m (Known ps root)
        (runScript (callWithin limit remaining) (body args))
        (playScript (callCode root limit remaining) (body args)) := by
      rcases hOne with rfl | rfl
      · exact wan_mirrors h args
      · exact time_mirrors hCall h hArgs
    obtain ⟨r, m', hMachine, hWorld, h', hGrows, hPost⟩ := hScript
    refine ⟨r, m', ?_, ?_, h', hGrows, hPost⟩
    · rw [callCode, MachineM.runIn_ofStep, hBody]
      exact hMachine
    · rw [callWithin, EvalM.runIn_ofStep, hBody]
      exact hWorld

end Calls

/-- **A call is mirrored by a call of the machine.** -/
theorem callWithin_mirrors (ps : Node → Prop) (root : FrameId) (limit remaining : Nat) :
    CallsMirror ps root (callWithin limit remaining) (callCode root limit remaining) := by
  induction remaining with
  | zero =>
    intro m f args h hf hArgs
    rw [callWithin, callCode]
    exact .throw h _
  | succ remaining ih =>
    intro m f args h hf hArgs
    cases f with
    | closure c => exact closure_mirrors ih h hf hArgs
    | native n => exact native_mirrors ih h n hArgs
    | number | string | boolean =>
      rw [callWithin, callCode]
      · exact .throw h _
      all_goals
        intro x hEq
        cases hEq

-- ----------------------------------------------------------------------------
-- Sessions
-- ----------------------------------------------------------------------------

section Sessions

variable {ps : Node → Prop} {root : FrameId} {m : Machine}

theorem run_mirrors (h : m.Lexical ps root) (config : Config) {source : String}
    (hSource : ∀ n, parse source = .ok n → ps n) :
    m.world.run config root source =
        ((m.run config root source).1, (m.run config root source).2.world) ∧
      (m.run config root source).2.Lexical ps root := by
  unfold World.run Machine.run
  cases hParse : parse source with
  | error e => exact ⟨rfl, h⟩
  | ok program =>
    have hCall := callWithin_mirrors ps root config.maxCallDepth config.maxCallDepth
    obtain ⟨r, m', hMachine, hWorld, h', -, -⟩ :=
      evalNode_mirrors hCall (.whole (hSource program hParse)) h h.base
    simp only [World.evaluate, Zaban.evaluate, hMachine, hWorld, true_and]
    exact h'

/-- One run keeps the invariant, so every session does. -/
theorem session_mirrors (h : m.Lexical ps root) {steps : List (Config × String)}
    (hSources : ∀ step ∈ steps, ∀ n, parse step.2 = .ok n → ps n) :
    m.world.session root steps =
        ((m.session root steps).1, (m.session root steps).2.world) ∧
      (m.session root steps).2.Lexical ps root := by
  induction steps generalizing m with
  | nil => exact ⟨rfl, h⟩
  | cons step steps ih =>
    obtain ⟨config, source⟩ := step
    obtain ⟨hFirst, hOthers⟩ := List.forall_mem_cons.mp hSources
    obtain ⟨hRun, hLexical⟩ := run_mirrors h config hFirst
    obtain ⟨hRest, hAfter⟩ := ih hLexical hOthers
    rw [World.session, Machine.session, hRun]
    simp only [hRest, true_and]
    exact hAfter

theorem fresh_lexical (sink : Sink) (clock : Nat → Nat) :
    (Machine.fresh sink clock).Lexical ps 0 where
  size := rfl
  natives := rfl
  base := .root rfl rfl
  bound := by
    intro e f x v hFrame hBound
    -- the one frame is the root, and it binds the two native functions
    obtain rfl : e = 0 := by
      have hSome : ((Machine.fresh sink clock).world.store.frame? e).isSome = true := by
        rw [hFrame]
        rfl
      exact Nat.lt_one_iff.mp (Store.frame?_isSome_iff.mp hSome)
    obtain rfl := Option.some.inj hFrame
    have hNative : (x, v) ∈ [("wan", Value.native ⟨0, "wan"⟩), ("time", .native ⟨1, "time"⟩)] :=
      hBound
    rcases List.mem_cons.mp hNative with hWan | hRest
    · obtain ⟨-, rfl⟩ := Prod.mk.inj hWan
      exact known_of_ne_closure (by rintro _ ⟨⟩)
    · obtain ⟨-, rfl⟩ := Prod.mk.inj (List.mem_singleton.mp hRest)
      exact known_of_ne_closure (by rintro _ ⟨⟩)
  visits := List.forall_mem_nil _

end Sessions

/-- **Names resolve lexically.** In every session from a fresh root, the machine that resolves names
in advance gives the same results as the evaluator and ends in the same world. Wherever an
occurrence is evaluated, whoever called the function around it, the chain of its frame has the shape
of its nest, and its names are found and changed where their addresses lead. -/
theorem names_resolve_lexically (sink : Sink) (clock : Nat → Nat)
    (steps : List (Config × String)) :
    let after := (Machine.fresh sink clock).session 0 steps
    (World.fresh sink clock).session 0 steps = (after.1, after.2.world) ∧
      ∀ v ∈ after.2.visits, v.Lexical (fun n => ∃ step ∈ steps, parse step.2 = .ok n) 0 := by
  have hSources : ∀ step ∈ steps, ∀ n, parse step.2 = .ok n → ∃ s ∈ steps, parse s.2 = .ok n :=
    fun step hStep n hn => ⟨step, hStep, hn⟩
  obtain ⟨hSame, hLexical⟩ := session_mirrors (fresh_lexical sink clock) hSources
  exact ⟨hSame, hLexical.visits⟩

end Zaban
