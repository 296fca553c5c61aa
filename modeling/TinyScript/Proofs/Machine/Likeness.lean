import TinyScript.Proofs.Machine.Simulation

/-
  Machines that are alike.

  A machine may have more cells than another one in front of those that they share, its
  methods may be written otherwise, and its world may differ as far as no program can tell.
  Two such machines answer alike.

  * `Likeness`: what may differ;
  * `Likeness.Faithful`: no elementary step tells worlds, functions or methods apart;
  * `Likeness.Faithful.simulates`: then no program does.
-/

namespace TinyScript

/-- How two machines may differ. -/
structure Likeness where
  /-- The number of cells that the second machine has in front of those of the first. -/
  shift : Nat
  /-- The values that occur. -/
  values : Value → Prop
  /-- The worlds. -/
  worlds : World → World → Prop
  /-- The functions of the host. -/
  functions : NativeFunction → NativeFunction → Prop
  /-- The methods of the program. -/
  methods : Method → Method → Prop

namespace Likeness

variable (l : Likeness)

/-- What a name stands for is alike. -/
inductive Callables : Callable → Callable → Prop
  | native {f f'} : l.functions f f' → Callables (.native f) (.native f')
  | declared {d d'} : l.methods d d' → Callables (.declared d) (.declared d')

/-- Frames are alike: variables are bound to shifted cells, and functions are alike. -/
structure Frames (f f' : Frame Nat Callable) : Prop where
  vars : ∀ x, f'.vars x = (f.vars x).map (· + l.shift)
  functions : ∀ x n, Option.Rel l.Callables (f.functions x n) (f'.functions x n)

/-- Scopes are alike frame by frame. -/
abbrev Scopes : RunScope → RunScope → Prop := List.Forall₂ l.Frames

/-- The cells of the first store are those of the second from `shift` on. -/
structure Stores (A A' : Array Value) : Prop where
  size : A'.size = A.size + l.shift
  get : ∀ c : Nat, A'[c + l.shift]? = A[c]?
  values : ∀ (c : Nat) v, A[c]? = some v → l.values v

/-- Two machines are alike. -/
structure Machines (m m' : Machine) : Prop where
  scope : l.Scopes m.scope m'.scope
  depth : m.depth = m'.depth
  cells : l.Stores m.cells m'.cells
  world : l.worlds m.world m'.world

/-- Two runs on machines that are alike. -/
def pairing : Pairing where
  machines := l.Machines
  cells c c' := c' = c + l.shift
  values := l.values

/-- Two computations of the host cannot be told apart. -/
abbrev Hosts {α β : Type} (R : α → β → Prop) (n : Native α) (n' : Native β) : Prop :=
  Relates Eq l.worlds R n n'

/-- No elementary step tells worlds, functions of the host or methods apart. -/
structure Faithful (r : Registry) : Prop where
  literal : ∀ v, l.values (.ofLiteral v)
  integer : ∀ i, l.values (.integer i)
  boolean : ∀ b, l.values (.boolean b)
  operator : ∀ {w w' a b}, l.worlds w w' → l.values a → l.values b → ∀ o,
    w'.binary o a b = w.binary o a b ∧ ∀ v, w.binary o a b = .ok v → l.values v
  field : ∀ {w w' ref}, l.worlds w w' → l.values (.object ref) → ∀ x,
    w'.field ref x = w.field ref x ∧ ∀ v, w.field ref x = .ok v → l.values v
  setField : ∀ {ref v}, l.values (.object ref) → l.values v → ∀ x,
    l.Hosts (fun _ _ => True) (Native.setField ref x v) (Native.setField ref x v)
  method : ∀ {ref vs}, l.values (.object ref) → (∀ v ∈ vs, l.values v) → ∀ x,
    l.Hosts l.pairing.Same (r.callMethod ref x vs) (r.callMethod ref x vs)
  function : ∀ {f f'}, l.functions f f' → f'.signature = f.signature ∧
    ∀ {vs}, (∀ v ∈ vs, l.values v) → l.Hosts l.pairing.Same (f.body vs) (f'.body vs)
  declared : ∀ {d d'}, l.methods d d' → d'.name = d.name ∧ d'.parameters = d.parameters ∧
    ∀ inv F, Eval.stmts r inv F d'.body = Eval.stmts r inv F d.body

variable {l}

/-! ## Scopes and stores -/

theorem Scopes.child {T T' : RunScope} (h : l.Scopes T T') : l.Scopes T.child T'.child :=
  .cons ⟨fun _ => rfl, fun _ _ => .none⟩ h

theorem Frames.empty : l.Frames {} {} := ⟨fun _ => rfl, fun _ _ => .none⟩

theorem Frames.defineVariable {f f' : Frame Nat Callable} (h : l.Frames f f') (x : String)
    (c : Nat) : l.Frames (f.defineVariable x c) (f'.defineVariable x (c + l.shift)) := by
  refine ⟨fun y => ?_, h.functions⟩
  rw [Frame.vars_defineVariable, Frame.vars_defineVariable]
  split
  · rfl
  · exact h.vars y

theorem Frames.defineFunction {f f' : Frame Nat Callable} {g g' : Callable} (h : l.Frames f f')
    (x : String) (k : Nat) (hg : l.Callables g g') :
    l.Frames (f.defineFunction x k g) (f'.defineFunction x k g') := by
  refine ⟨h.vars, fun y n => ?_⟩
  rw [Frame.functions_defineFunction, Frame.functions_defineFunction]
  split
  · exact .some hg
  · exact h.functions y n

theorem Scopes.modifyTop {T T' : RunScope} {g g' : Frame Nat Callable → Frame Nat Callable}
    (h : l.Scopes T T') (hg : ∀ f f', l.Frames f f' → l.Frames (g f) (g' f')) :
    l.Scopes (Scope.modifyTop g T) (Scope.modifyTop g' T') := by
  cases h with
  | nil => exact .cons (hg _ _ Frames.empty) .nil
  | cons hf hT => exact .cons (hg _ _ hf) hT

theorem Scopes.lookup? {T T' : RunScope} (h : l.Scopes T T') (x : String) :
    T'.lookup? x = (T.lookup? x).map (· + l.shift) := by
  induction h with
  | nil => rfl
  | cons hf hT ih =>
    rw [Scope.lookup?, Scope.lookup?, hf.vars x]
    cases Frame.vars _ x with
    | none => exact ih
    | some c => rfl

/-- The same functions are found, with closures that are alike. -/
theorem Scopes.findFunction? {T T' : RunScope} (h : l.Scopes T T') (x : String) (n : Nat) :
    Option.Rel (fun found found' => l.Callables found.1 found'.1 ∧ l.Scopes found.2 found'.2)
      (T.findFunction? x n) (T'.findFunction? x n) := by
  induction h with
  | nil => exact .none
  | @cons f f' T T' hf hT ih =>
    have hfun := hf.functions x n
    rw [Scope.findFunction?, Scope.findFunction?]
    generalize f.functions x n = o at hfun
    generalize f'.functions x n = o' at hfun
    cases hfun with
    | none => exact ih
    | some hc => exact .some ⟨hc, .cons hf hT⟩

theorem Stores.push {A A' : Array Value} {v : Value} (h : l.Stores A A') (hv : l.values v) :
    l.Stores (A.push v) (A'.push v) := by
  refine ⟨?_, fun c => ?_, fun c u hu => ?_⟩
  · rw [Array.size_push, Array.size_push, h.size]
    omega
  · rw [Array.getElem?_push, Array.getElem?_push, h.size, h.get]
    simp only [Nat.add_right_cancel_iff]
  · rw [Array.getElem?_push] at hu
    split at hu
    · cases hu
      exact hv
    · exact h.values c u hu

theorem Stores.set {A A' : Array Value} {v : Value} (h : l.Stores A A') (hv : l.values v)
    (c : Nat) : l.Stores (A.setIfInBounds c v) (A'.setIfInBounds (c + l.shift) v) := by
  refine ⟨?_, fun c' => ?_, fun c' u hu => ?_⟩
  · rw [Array.size_setIfInBounds, Array.size_setIfInBounds, h.size]
  · rw [Array.getElem?_setIfInBounds, Array.getElem?_setIfInBounds, h.size, h.get]
    simp only [Nat.add_right_cancel_iff, Nat.add_lt_add_iff_right]
  · rw [Array.getElem?_setIfInBounds] at hu
    split at hu
    · split at hu
      · cases hu
        exact hv
      · cases hu
    · exact h.values c' u hu

/-! ## Machines -/

section
variable {m m' : Machine}

theorem Machines.inScope {T T' : RunScope} (h : l.Machines m m') (hT : l.Scopes T T') :
    l.Machines { m with scope := T } { m' with scope := T' } :=
  { h with scope := hT }

theorem Machines.inWorld {w w' : World} (h : l.Machines m m') (hw : l.worlds w w') :
    l.Machines { m with world := w } { m' with world := w' } :=
  { h with world := hw }

theorem Machines.define {v : Value} (h : l.Machines m m') (x : String) (hv : l.values v) :
    l.Machines (m.define x v) (m'.define x v) where
  scope := by
    show l.Scopes (m.scope.defineVariable x _) (m'.scope.defineVariable x _)
    rw [h.cells.size]
    exact h.scope.modifyTop fun _ _ hf => hf.defineVariable x _
  depth := h.depth
  cells := h.cells.push hv
  world := h.world

theorem Machines.cell? (h : l.Machines m m') (x : String) :
    m'.cell? x = (m.cell? x).map (· + l.shift) :=
  h.scope.lookup? x

theorem agree_native {α β : Type} {R : α → β → Prop} {n : Native α} {n' : Native β}
    (h : l.Hosts R n n') : l.pairing.Agree R (Eval.native n) (Eval.native n') := by
  intro m m' hm
  have hn : Related Eq l.worlds R (n m.world) (n' m'.world) := h hm.world
  rw [Eval.native, Eval.native]
  generalize n m.world = o at hn
  generalize n' m'.world = o' at hn
  cases hn with
  | ok hr hw => exact .ok hr (hm.inWorld hw)
  | error he hw => exact .error he (hm.inWorld hw)

theorem agree_inScope {α β : Type} {R : α → β → Prop} {x : Eval α} {y : Eval β}
    {T T' : RunScope} (hT : l.Scopes T T') (h : l.pairing.Agree R x y) :
    l.pairing.Agree R (Eval.inScope T x) (Eval.inScope T' y) :=
  fun _ _ hm => related_inScope (h (hm.inScope hT)) fun _ _ hm₁ => hm₁.inScope hm.scope

theorem agree_deeper {α β : Type} {R : α → β → Prop} {x : Eval α} {y : Eval β}
    (h : l.pairing.Agree R x y) : l.pairing.Agree R (Eval.deeper x) (Eval.deeper y) :=
  fun _ _ hm => related_deeper (h { hm with depth := congrArg (· + 1) hm.depth })
    fun _ _ hm₁ => { hm₁ with depth := congrArg (· - 1) hm₁.depth }

end

namespace Faithful

variable {r : Registry}

/-- Everything but calls. -/
theorem simulates_of_calls (h : l.Faithful r) {inv inv' : Invoke}
    (hcall : ∀ {c c' T T' vs}, l.Callables c c' → l.Scopes T T' → (∀ v ∈ vs, l.values v) →
      l.pairing.Agree l.pairing.Same (inv c T vs) (inv' c' T' vs)) :
    Simulates l.pairing r r inv inv' where
  literal := h.literal
  boolean := h.boolean
  integer := h.integer
  cell x := by
    refine Relates.get_bind fun m m' hm => ?_
    rw [hm.cell? x]
    cases m.cell? x with
    | none => exact .error rfl hm
    | some c => exact .ok rfl hm
  load := by
    rintro c _ rfl m m' hm
    show Related _ _ _ (.ok ((m.cells[c]?).getD .nil) m) (.ok ((m'.cells[c + l.shift]?).getD .nil) m')
    rw [hm.cells.get c]
    refine .ok ⟨rfl, ?_⟩ hm
    cases hv : m.cells[c]? with
    | none => exact h.literal .nil
    | some v => exact hm.cells.values c v hv
  store := by
    rintro c _ v rfl hv m m' hm
    exact .ok trivial { hm with cells := hm.cells.set hv c }
  define x _ hv := fun m m' hm => .ok trivial (hm.define x hv)
  operator o a b ha hb := by
    refine Relates.get_bind fun m m' hm => ?_
    obtain ⟨heq, hv⟩ := h.operator hm.world ha hb o
    rw [heq]
    exact Pairing.agree_lift (fun v hok => ⟨rfl, hv v hok⟩) hm
  field {v} hv x := by
    refine Relates.bind (Pairing.agree_asObject hv) ?_
    rintro ref _ ⟨rfl, href⟩
    refine Relates.get_bind fun m m' hm => ?_
    obtain ⟨heq, hu⟩ := h.field hm.world href x
    rw [heq]
    exact Pairing.agree_ofExcept (fun u hok => ⟨rfl, hu u hok⟩) hm
  setField href hv x := agree_native (h.setField href hv x)
  method {v vs} hv hvs x := by
    refine Relates.bind (Pairing.agree_asObject hv) ?_
    rintro ref _ ⟨rfl, href⟩
    exact agree_native (h.method href hvs x)
  call {vs} hvs x _ := by
    refine Relates.get_bind fun m m' hm => ?_
    have hfound := hm.scope.findFunction? x vs.length
    generalize m.scope.findFunction? x vs.length = o at hfound
    generalize m'.scope.findFunction? x vs.length = o' at hfound
    cases hfound with
    | none => exact .error rfl hm
    | some hf => exact hcall hf.1 hf.2 hvs hm
  inChild hxy := fun m m' hm => agree_inScope hm.scope.child hxy hm

/-- Calls of functions that are alike correspond. -/
theorem invoke (h : l.Faithful r) (F : Nat) {c c' : Callable} {T T' : RunScope} {vs : List Value}
    (hc : l.Callables c c') (hT : l.Scopes T T') (hvs : ∀ v ∈ vs, l.values v) :
    l.pairing.Agree l.pairing.Same (Eval.invoke r F c T vs) (Eval.invoke r F c' T' vs) := by
  rw [Eval.invoke.eq_def r F c, Eval.invoke.eq_def r F c']
  cases hc with
  | @native f f' hf =>
    obtain ⟨hsignature, hbody⟩ := h.function hf
    simp only [Callable.name, Callable.arity, hsignature]
    exact Relates.bind (Pairing.agree_ofExcept (R := fun _ _ => True) fun _ _ => trivial)
      fun _ _ _ => agree_native (hbody hvs)
  | @declared d d' hd =>
    obtain ⟨hname, hparameters, hbody⟩ := h.declared hd
    simp only [Callable.name, Callable.arity, Method.arity, hname, hparameters, hbody]
    refine Relates.bind (Pairing.agree_ofExcept (R := fun _ _ => True) fun _ _ => trivial)
      fun _ _ _ => ?_
    refine Relates.get_bind fun m m' hm => ?_
    simp only [← hm.depth]
    split
    · exact .error rfl hm
    · cases F with
      | zero => exact .error rfl hm
      | succ F =>
        have hsim : Simulates l.pairing r r (Eval.invoke r F) (Eval.invoke r F) :=
          h.simulates_of_calls fun hc hT hvs => invoke h F hc hT hvs
        refine Related.bind (agree_deeper (agree_inScope hT.child
          (hsim.methodBody d.parameters d.body (.of_all fun _ _ => trivial) hvs (.inl rfl))) hm) ?_
        rintro completion _ ⟨rfl, hv⟩
        exact Relates.pure ⟨rfl, hv⟩

/-- The elementary steps of runs on machines that are alike correspond, calls included. -/
theorem simulates (h : l.Faithful r) (F : Nat) :
    Simulates l.pairing r r (Eval.invoke r F) (Eval.invoke r F) :=
  h.simulates_of_calls fun hc hT hvs => h.invoke F hc hT hvs

end Faithful

/-- The outermost scopes of two fresh machines are alike. -/
theorem scopes_ofRegistry {r : Registry} (h : ∀ e ∈ r.functions, l.functions e.2 e.2)
    (w w' : World) :
    l.Scopes (Machine.ofRegistry r w).scope (Machine.ofRegistry r w').scope := by
  have hfold : ∀ fs : List ((String × Nat) × NativeFunction), (∀ e ∈ fs, l.functions e.2 e.2) →
      ∀ T : RunScope, l.Scopes T T →
        let define := fun (T : RunScope) (f : (String × Nat) × NativeFunction) =>
          T.defineFunction f.2.signature.name f.2.signature.arity (.native f.2)
        l.Scopes (fs.foldl define T) (fs.foldl define T) := by
    intro fs
    induction fs with
    | nil => exact fun _ T hT => hT
    | cons f fs ih =>
      intro hfs T hT
      obtain ⟨hf, hfs⟩ := List.forall_mem_cons.1 hfs
      exact ih hfs _ (hT.modifyTop fun _ _ hframe => hframe.defineFunction _ _ (.native hf))
  exact hfold r.functions h Scope.root (.cons Frames.empty .nil)

/-- Declaring methods that are alike. -/
theorem agree_defineMethods {r : Registry} (h : l.Faithful r) {ds ds' : List Method}
    (hds : List.Forall₂ l.methods ds ds') :
    l.pairing.Agree (fun _ _ => True) (ds.forM Eval.defineMethod) (ds'.forM Eval.defineMethod) := by
  refine Relates.forM (Q := fun _ _ => True) trivial hds fun d d' hd m m' hm => ?_
  obtain ⟨hname, hparameters, -⟩ := h.declared hd
  refine .ok trivial (hm.inScope ?_)
  simp only [Method.arity, hname, hparameters]
  exact hm.scope.modifyTop fun _ _ hf => hf.defineFunction _ _ (.declared hd)

end Likeness

end TinyScript
