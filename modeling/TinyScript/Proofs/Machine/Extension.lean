import TinyScript.Proofs.Machine.Isolation
import TinyScript.Proofs.Machine.Soundness
import TinyScript.Proofs.Typing.Extension

/-
  Programs on hosts that provide more.

  A run on an extended host differs from a run on the host itself in the outermost frame of
  its scope only, which has further functions.  A method of the program may have the name and
  arity of one of them; it hides it.  Before the methods are declared, the initial values of
  global variables call functions of the first host only, because analysis has found all that
  they call.  So no lookup ever reaches a further function.

  A reference to an object type is a place in the list of types.  A host that hands out places
  that it has not given to a type would see an extension fill them, so the functions of the
  host are required not to (`Registry.SelfContained`).

  * `Value.Described`: the type of an object is one that the host describes;
  * `Scope.Widened`: the scopes of two runs of one program on two hosts;
  * `simulates_extension`: the elementary steps of these runs correspond;
  * `extension_conservative`: a program has the same facts, results and effects on both hosts.
-/

namespace TinyScript

/-! ## Objects of described types -/

/-- If the value is an object, the host describes its type. -/
def Value.Described (r : Registry) (v : Value) : Prop :=
  ∀ ref, v = .object ref → ref.type.index < r.types.size

/-- The host describes the types of all objects that are reached through fields. -/
def World.Described (r : Registry) (w : World) : Prop :=
  ∀ o ∈ w.objects, ∀ e ∈ o.fields, e.2.Described r

/-- Where the world has objects of described types only, the computation keeps it so, and its
    result is as stated. -/
def Native.Confined (r : Registry) {α : Type} (P : α → Prop) (n : Native α) : Prop :=
  ∀ w : World, w.Described r → match n w with
    | .ok a w' => P a ∧ w'.Described r
    | .error _ w' => w'.Described r

/-- The functions and methods of the host neither give nor store objects of types that the
    host does not describe, unless they get such objects. -/
structure Registry.SelfContained (r : Registry) : Prop where
  functions : ∀ f ∈ r.functions.map Prod.snd, ∀ vs, (∀ v ∈ vs, v.Described r) →
    Native.Confined r (Value.Described r) (f.body vs)
  methods : ∀ type x k f, (r.describe type).method? x k = some f → ∀ vs,
    (∀ v ∈ vs, v.Described r) → Native.Confined r (Value.Described r) (f.body vs)

section
variable {r : Registry} {v : Value} {w w' : World}

theorem Value.Plain.described (h : v.Plain) : v.Described r := fun ref href => absurd href (h ref)

namespace World.Described

variable {ref : ObjectRef} {x : String}

theorem fields (hw : w.Described r) : ∀ e ∈ w.fields ref, e.2.Described r := by
  unfold World.fields
  split
  · rename_i o ho
    exact hw o (Array.mem_of_getElem? ho)
  · exact List.forall_mem_nil _

theorem field (hw : w.Described r) (h : w.field ref x = .ok v) : v.Described r := by
  unfold World.field at h
  split at h
  · rename_i u hu
    cases h
    exact hw.fields _ (Table.mem_of_get? hu)
  · cases h

theorem setField (hw : w.Described r) (hv : v.Described r) (h : w.setField ref x v = .ok w') :
    w'.Described r := by
  unfold World.setField at h
  split at h
  · rename_i fields hfields
    cases h
    intro o ho
    obtain ⟨i, hi⟩ := Array.getElem?_of_mem ho
    rw [Array.getElem?_modify] at hi
    split at hi
    · obtain ⟨o', -, rfl⟩ := Option.map_eq_some_iff.1 hi
      intro e he
      rcases Table.mem_replace? hfields he with rfl | he
      · exact hv
      · exact hw.fields e he
    · exact hw o (Array.mem_of_getElem? hi)
  · cases h

end World.Described

namespace Native.Confined

variable {α β : Type} {P : α → Prop} {Q : β → Prop} {n : Native α}

theorem bind {g : α → Native β} (h : Confined r P n) (hg : ∀ a, P a → Confined r Q (g a)) :
    Confined r Q (n >>= g) := by
  intro w hw
  have hn := h w hw
  cases ho : n w with
  | ok a w₁ =>
    rw [ho] at hn
    rw [bind_of_ok ho]
    exact hg a hn.1 w₁ hn.2
  | error e w₁ =>
    rw [ho] at hn
    rw [bind_of_error ho]
    exact hn

theorem pure {a : α} (h : P a) : Confined r P (pure a) := fun _ hw => ⟨h, hw⟩

theorem throw (e : Stop) : Confined r P (throw e) := fun _ hw => hw

theorem ofExcept {x : Except RuntimeError α} (h : ∀ a, x = .ok a → P a) :
    Confined r P (Native.ofExcept x) := by
  cases x with
  | ok a => exact pure (h a rfl)
  | error e => exact throw _

theorem setField {ref : ObjectRef} {x : String} (hv : v.Described r) :
    Confined r (fun _ => True) (Native.setField ref x v) := by
  intro w hw
  cases h : Native.setField ref x v w with
  | ok u w₁ => exact ⟨trivial, hw.setField hv (Native.setField_eq_ok.1 h)⟩
  | error e w₁ =>
    obtain ⟨-, -, -, rfl⟩ := Native.setField_eq_error.1 h
    exact hw

end Native.Confined

end

/-! ## Scopes of two runs -/

/-- What the functions of the host are found under. -/
def Registry.table (r : Registry) (x : String) (k : Nat) : Option Callable :=
  (Scope.defineHost Callable.native (Scope.root : RunScope) r.functions).function? x k

/-- What the methods of a program are found under. -/
def Method.table (ds : List Method) : String → Nat → Option Callable :=
  (ds.foldl (fun f d => f.defineFunction d.name d.arity (.declared d))
    ({} : Frame Nat Callable)).functions

namespace Method

theorem table_concat (ds : List Method) (d : Method) (x : String) (k : Nat) :
    table (ds ++ [d]) x k =
      if x = d.name ∧ k = d.arity then some (.declared d) else table ds x k := by
  rw [table, List.foldl_append]
  rfl

theorem mem_of_table {ds : List Method} {x : String} {k : Nat} {c : Callable}
    (h : table ds x k = some c) : ∃ d ∈ ds, c = .declared d := by
  induction ds using List.reverseRecOn with
  | nil => cases h
  | append_singleton ds d ih =>
    rw [table_concat] at h
    split at h
    · exact ⟨d, by simp, (Option.some.inj h).symm⟩
    · obtain ⟨d', hd', rfl⟩ := ih h
      exact ⟨d', List.mem_append_left _ hd', rfl⟩

theorem exists_table {ds : List Method} {d : Method} (hd : d ∈ ds) :
    ∃ c, table ds d.name d.arity = some c := by
  induction ds using List.reverseRecOn with
  | nil => exact absurd hd List.not_mem_nil
  | append_singleton ds d' ih =>
    rw [table_concat]
    split
    · exact ⟨_, rfl⟩
    · rename_i hne
      rcases List.mem_append.1 hd with hd | hd
      · exact ih hd
      · obtain rfl := List.mem_singleton.1 hd
        exact absurd ⟨rfl, rfl⟩ hne

end Method

/-- The program or the first host has a function of the name and arity. -/
def Registry.Reaches (r : Registry) (M : String → Nat → Option Callable) (x : String) (k : Nat) :
    Prop :=
  (∃ c, M x k = some c) ∨ ∃ c, r.table x k = some c

/-- Scopes of two runs of one program, whose methods are those of the table `M`: the outermost
    frames hold the functions of the hosts, and the frames inside the program hold none. -/
inductive Scope.Widened (r r' : Registry) (M : String → Nat → Option Callable) :
    RunScope → RunScope → Prop
  | program {s f f' : Frame Nat Callable} : s.functions = M → f.functions = r.table →
      f'.functions = r'.table → f'.vars = f.vars → Scope.Widened r r' M [s, f] [s, f']
  | inner {g : Frame Nat Callable} {T T' : RunScope} : (∀ x k, g.functions x k = none) →
      Scope.Widened r r' M T T' → Scope.Widened r r' M (g :: T) (g :: T')

/-- What is called is a function of the first host, or a method found in scopes of the two
    runs. -/
inductive Callable.Fits (r r' : Registry) (M : String → Nat → Option Callable) :
    Callable → RunScope → RunScope → Prop
  | native {f : NativeFunction} {T T' : RunScope} : f ∈ r.functions.map Prod.snd →
      Callable.Fits r r' M (.native f) T T'
  | declared {d : Method} {T T' : RunScope} :
      CallsWithin (r.Reaches M) (Stmt.partsList d.body) → Scope.Widened r r' M T T' →
      Callable.Fits r r' M (.declared d) T T'

/-- The methods of the table call what the program or the first host has. -/
def Registry.Closes (r : Registry) (M : String → Nat → Option Callable) : Prop :=
  ∀ x k c, M x k = some c →
    ∃ d, c = .declared d ∧ CallsWithin (r.Reaches M) (Stmt.partsList d.body)

section
variable {r r' : Registry} {M : String → Nat → Option Callable} {T T' : RunScope}

theorem Registry.mem_of_table {x : String} {k : Nat} {c : Callable} (h : r.table x k = some c) :
    ∃ f ∈ r.functions.map Prod.snd, c = .native f := by
  obtain ⟨e, he, -, -, hc⟩ := Scope.mem_of_function?_defineHost h
  exact ⟨e.2, List.mem_map_of_mem he, hc.symm⟩

/-- What analysis finds among the functions of the host is there in a run. -/
theorem Registry.exists_table {x : String} {k : Nat}
    (h : (CheckState.ofRegistry r).scope.Knows x k) : ∃ c, r.table x k = some c := by
  obtain ⟨signature, hf⟩ := h
  obtain ⟨e, he, rfl, rfl, -⟩ := Scope.mem_of_function?_defineHost hf
  exact Scope.exists_function?_defineHost he _

namespace Scope.Widened

theorem child (h : Widened r r' M T T') : Widened r r' M T.child T'.child :=
  .inner (fun _ _ => rfl) h

theorem defineVariable (h : Widened r r' M T T') (x : String) (c : Nat) :
    Widened r r' M (T.defineVariable x c) (T'.defineVariable x c) := by
  cases h with
  | program hs hf hf' hvars => exact .program hs hf hf' hvars
  | inner hg h => exact .inner hg h

theorem lookup? (h : Widened r r' M T T') (x : String) : T'.lookup? x = T.lookup? x := by
  induction h with
  | program _ _ _ hvars => simp only [Scope.lookup?, hvars]
  | inner _ _ ih => rw [Scope.lookup?, Scope.lookup?, ih]

/-- What the program or the first host has is found in both scopes. -/
theorem findFunction? (h : Widened r r' M T T') (hr : r.Extends r') (hM : r.Closes M) {x : String}
    {k : Nat} (hx : r.Reaches M x k) :
    ∃ c T₀ T₀', T.findFunction? x k = some (c, T₀) ∧ T'.findFunction? x k = some (c, T₀') ∧
      c.Fits r r' M T₀ T₀' := by
  induction h with
  | @program s f f' hs hf hf' hvars =>
    simp only [Scope.findFunction?, hs, hf, hf']
    cases hMx : M x k with
    | some c =>
      obtain ⟨d, rfl, hd⟩ := hM x k c hMx
      exact ⟨_, _, _, rfl, rfl, .declared hd (.program hs hf hf' hvars)⟩
    | none =>
      obtain ⟨c, hc⟩ : ∃ c, r.table x k = some c := by simpa [Registry.Reaches, hMx] using hx
      have hc' : r'.table x k = some c := Scope.function?_of_extends hr hc
      obtain ⟨g, hg, rfl⟩ := Registry.mem_of_table hc
      rw [hc, hc']
      exact ⟨_, _, _, rfl, rfl, .native hg⟩
  | inner hg _ ih => simpa only [Scope.findFunction?, hg] using ih

end Scope.Widened

end

/-! ## Machines of two runs -/

/-- Machines that differ in their scopes only, with objects of described types. -/
structure Machine.Beside (r r' : Registry) (M : String → Nat → Option Callable) (m m' : Machine) :
    Prop where
  scope : Scope.Widened r r' M m.scope m'.scope
  rest : m' = { m with scope := m'.scope }
  cells : ∀ (c : Nat) v, m.cells[c]? = some v → v.Described r
  world : m.world.Described r

/-- Two runs of one program on two hosts. -/
def Pairing.ofExtension (r r' : Registry) (M : String → Nat → Option Callable) : Pairing where
  machines := Machine.Beside r r' M
  cells := Eq
  values := Value.Described r

section
variable {r r' : Registry} {M : String → Nat → Option Callable} {m m' : Machine}

namespace Machine.Beside

theorem inScope {T T' : RunScope} (h : m.Beside r r' M m') (hT : Scope.Widened r r' M T T') :
    Machine.Beside r r' M { m with scope := T } { m' with scope := T' } where
  scope := hT
  rest := by rw [h.rest]
  cells := h.cells
  world := h.world

theorem define (h : m.Beside r r' M m') (x : String) {v : Value} (hv : v.Described r) :
    Machine.Beside r r' M (m.define x v) (m'.define x v) where
  scope := by
    rw [Machine.define, Machine.define, h.rest]
    exact h.scope.defineVariable x _
  rest := by
    rw [Machine.define, h.rest]
    rfl
  cells c u hu := by
    rw [Machine.define, Array.getElem?_push] at hu
    split at hu
    · cases hu
      exact hv
    · exact h.cells c u hu
  world := h.world

theorem store (h : m.Beside r r' M m') (c : Nat) {v : Value} (hv : v.Described r) :
    Machine.Beside r r' M { m with cells := m.cells.setIfInBounds c v }
      { m' with cells := m'.cells.setIfInBounds c v } where
  scope := h.scope
  rest := by rw [h.rest]
  cells c' u hu := by
    rw [Array.getElem?_setIfInBounds] at hu
    split at hu
    · split at hu
      · cases hu
        exact hv
      · cases hu
    · exact h.cells c' u hu
  world := h.world

end Machine.Beside

namespace Pairing

/-- A confined computation of the host is the same in both runs. -/
theorem agree_native {α : Type} {P : α → Prop} {n : Native α} (h : Native.Confined r P n) :
    (ofExtension r r' M).Agree (fun a a' => a = a' ∧ P a) (Eval.native n) (Eval.native n) := by
  intro m m' hm
  have hn := h m.world hm.world
  rw [hm.rest, Eval.native, Eval.native]
  cases ho : n m.world with
  | ok a w =>
    rw [ho] at hn
    exact .ok ⟨rfl, hn.1⟩ ⟨hm.scope, rfl, hm.cells, hn.2⟩
  | error e w =>
    rw [ho] at hn
    exact .error rfl ⟨hm.scope, rfl, hm.cells, hn⟩

theorem agree_inScope {α β : Type} {R : α → β → Prop} {x : Eval α} {y : Eval β} {T T' : RunScope}
    (hT : Scope.Widened r r' M T T') (h : (ofExtension r r' M).Agree R x y) :
    (ofExtension r r' M).Agree R (Eval.inScope T x) (Eval.inScope T' y) :=
  fun _ _ hm => related_inScope (h (hm.inScope hT)) fun _ _ hm₁ => hm₁.inScope hm.scope

theorem agree_deeper {α β : Type} {R : α → β → Prop} {x : Eval α} {y : Eval β}
    (h : (ofExtension r r' M).Agree R x y) :
    (ofExtension r r' M).Agree R (Eval.deeper x) (Eval.deeper y) := by
  intro m m' hm
  refine related_deeper (h ?_) fun m₁ m₁' (hm₁ : m₁.Beside r r' M m₁') => ?_
  · exact ⟨hm.scope, by rw [hm.rest], hm.cells, hm.world⟩
  · exact ⟨hm₁.scope, by rw [hm₁.rest], hm₁.cells, hm₁.world⟩

end Pairing

/-! ## Runs -/

/-- A method of an object whose type the first host describes is the same on both. -/
theorem Registry.Extends.callMethod (h : r.Extends r') {ref : ObjectRef}
    (href : (Value.object ref).Described r) (x : String) (vs : List Value) :
    r'.callMethod ref x vs = r.callMethod ref x vs := by
  rw [Registry.callMethod, Registry.callMethod, h.extendedBy.describe ref.type (href ref rfl)]

theorem Registry.SelfContained.callMethod (h : r.SelfContained) {ref : ObjectRef}
    (href : (Value.object ref).Described r) {vs : List Value} (hvs : ∀ v ∈ vs, v.Described r)
    (x : String) : Native.Confined r (Value.Described r) (r.callMethod ref x vs) := by
  unfold Registry.callMethod
  split
  · rename_i f hf
    exact h.methods ref.type x vs.length f hf _ (List.forall_mem_cons.2 ⟨href, hvs⟩)
  · exact .throw _

open Pairing (agree_native agree_inScope agree_deeper agree_ofExcept agree_lift agree_asObject)

/-- The elementary steps of the two runs correspond if calls do. -/
theorem simulates_of_fits (h : r.Extends r') (hr : r.SelfContained) (hM : r.Closes M)
    {inv inv' : Invoke}
    (hinv : ∀ {c T T' vs}, Callable.Fits r r' M c T T' → (∀ v ∈ vs, v.Described r) →
      (Pairing.ofExtension r r' M).Agree (Pairing.ofExtension r r' M).Same (inv c T vs)
        (inv' c T' vs)) :
    Simulates (.ofExtension r r' M) r r' inv inv' (r.Reaches M) where
  literal l := by cases l <;> nofun
  boolean _ := nofun
  integer _ := nofun
  cell x := by
    refine Relates.get_bind fun m m' hm => ?_
    have hcell : m'.cell? x = m.cell? x := hm.scope.lookup? x
    rw [hcell]
    cases m.cell? x with
    | none => exact .error rfl hm
    | some c => exact .ok rfl hm
  load := by
    rintro c _ rfl m m' hm
    rw [Eval.load_apply, Eval.load_apply, hm.rest]
    refine .ok ⟨rfl, ?_⟩ (hm.rest ▸ hm)
    cases hv : m.cells[c]? with
    | none => exact nofun
    | some v => exact hm.cells c v hv
  store := by
    rintro c _ v rfl hv m m' hm
    exact .ok trivial (hm.store c hv)
  define x _ hv := fun m m' hm => .ok trivial (hm.define x hv)
  operator o a b _ _ := by
    refine Relates.get_bind fun m m' hm => ?_
    have hworld : m'.world = m.world := by rw [hm.rest]
    rw [hworld]
    exact agree_lift (fun v hv => ⟨rfl, (plain_of_binary hv).described⟩) hm
  field {v} hv x := by
    refine Relates.bind (agree_asObject hv) ?_
    rintro ref _ ⟨rfl, -⟩
    refine Relates.get_bind fun m m' hm => ?_
    have hworld : m'.world = m.world := by rw [hm.rest]
    rw [hworld]
    exact agree_ofExcept (fun u hu => ⟨rfl, hm.world.field hu⟩) hm
  setField _ hv x := (agree_native (.setField hv)).mono fun _ _ _ => trivial
  method {v vs} hv hvs x := by
    refine Relates.bind (agree_asObject hv) ?_
    rintro ref _ ⟨rfl, href⟩
    rw [h.callMethod href]
    exact agree_native (hr.callMethod href hvs x)
  call {vs} hvs x hx := by
    refine Relates.get_bind fun m m' hm => ?_
    obtain ⟨c, T, T', hfound, hfound', hc⟩ := hm.scope.findFunction? h hM hx
    rw [hfound, hfound']
    exact hinv hc hvs hm
  inChild hxy := fun m m' hm => agree_inScope hm.scope.child hxy hm

/-- Calls correspond. -/
theorem agree_invoke (h : r.Extends r') (hr : r.SelfContained) (hM : r.Closes M) (F : Nat)
    {c : Callable} {T T' : RunScope} {vs : List Value} (hc : Callable.Fits r r' M c T T')
    (hvs : ∀ v ∈ vs, v.Described r) :
    (Pairing.ofExtension r r' M).Agree (Pairing.ofExtension r r' M).Same (Eval.invoke r F c T vs)
      (Eval.invoke r' F c T' vs) := by
  rw [Eval.invoke.eq_def r F c, Eval.invoke.eq_def r' F c]
  have harity := agree_ofExcept (p := .ofExtension r r' M) (R := fun _ _ => True)
    (x := checkArity c.name vs c.arity) fun _ _ => trivial
  refine Relates.bind harity fun _ _ _ => ?_
  cases hc with
  | native hf => exact agree_native (hr.functions _ hf vs hvs)
  | @declared d _ _ hcalls hT =>
    refine Relates.get_bind fun m m' hm => ?_
    have hdepth : m'.depth = m.depth := by rw [hm.rest]
    simp only [hdepth]
    split
    · exact .error rfl hm
    · cases F with
      | zero => exact .error rfl hm
      | succ F =>
        have hsim : Simulates (.ofExtension r r' M) r r' (Eval.invoke r F) (Eval.invoke r' F)
            (r.Reaches M) :=
          simulates_of_fits h hr hM fun hc hvs => agree_invoke h hr hM F hc hvs
        have hbody := hsim.methodBody d.parameters d.body hcalls hvs (F := F) (.inl rfl)
        refine Related.bind (agree_deeper (agree_inScope hT.child hbody) hm) ?_
        rintro completion _ ⟨rfl, hv⟩
        exact Relates.pure ⟨rfl, hv⟩

/-- The elementary steps of two runs of one program on two hosts correspond, calls included. -/
theorem simulates_extension (h : r.Extends r') (hr : r.SelfContained) (hM : r.Closes M) (F : Nat) :
    Simulates (.ofExtension r r' M) r r' (Eval.invoke r F) (Eval.invoke r' F) (r.Reaches M) :=
  simulates_of_fits h hr hM fun hc hvs => agree_invoke h hr hM F hc hvs

/-! ## Programs -/

/-- Declaring methods fills the innermost frame. -/
theorem Eval.defineMethods_apply {es : List Method} (ds : List Method) {s : Frame Nat Callable}
    {T : RunScope} (hm : m.scope = { s with functions := Method.table es } :: T) :
    ds.forM defineMethod m =
      .ok ⟨⟩ { m with scope := { s with functions := Method.table (es ++ ds) } :: T } := by
  induction ds generalizing es m with
  | nil => rw [List.append_nil, ← hm]; rfl
  | cons d ds ih =>
    have hframe : Frame.defineFunction { s with functions := Method.table es } d.name d.arity
        (.declared d) = { s with functions := Method.table (es ++ [d]) } := by
      refine congrArg (Frame.mk s.vars) ?_
      funext x k
      exact (Method.table_concat es d x k).symm
    have hd : defineMethod d m =
        .ok ⟨⟩ { m with scope := { s with functions := Method.table (es ++ [d]) } :: T } := by
      rw [defineMethod_apply, hm, ← hframe]
      rfl
    rw [List.append_cons]
    exact (bind_of_ok hd).trans (ih rfl)

/-- Declaring the methods of a program in the scopes of two runs. -/
theorem Machine.Beside.defineMethods (h : m.Beside r r' (Method.table []) m')
    {f : Frame Nat Callable} (hm : m.scope.tail = [f]) (ds : List Method) :
    ∃ m₁ m₁', ds.forM Eval.defineMethod m = .ok ⟨⟩ m₁ ∧ ds.forM Eval.defineMethod m' = .ok ⟨⟩ m₁' ∧
      m₁.Beside r r' (Method.table ds) m₁' := by
  obtain ⟨hscope, hrest, hcells, hworld⟩ := h
  generalize hT : m.scope = T at hscope hm
  generalize hT' : m'.scope = T' at hscope
  cases hscope with
  | @program s f f' hs hf hf' hvars =>
    have hframe : s = { s with functions := Method.table [] } := by rw [← hs]
    refine ⟨_, _, Eval.defineMethods_apply ds (s := s) (by rw [hT, ← hframe]),
      Eval.defineMethods_apply ds (s := s) (by rw [hT', ← hframe]), ?_, ?_, hcells, hworld⟩
    · exact .program rfl hf hf' hvars
    · rw [hrest]
  | inner _ hinner =>
    -- One frame alone is no scope of a program.
    obtain rfl : _ = [f] := hm
    cases hinner with
    | inner _ hnil => cases hnil

/-- Global variables leave the frames around the innermost one as they are. -/
theorem Eval.tail_defineFields (F : Nat) (fs : List Field) :
    Keeps (fun m => m.scope.tail) (defineFields r F fs) := by
  induction fs with
  | nil => exact Keeps.pure _
  | cons f fs ih =>
    have hvalue : Keeps (fun m => m.scope.tail) (optionalExpr r (invoke r F) f.value) :=
      fun m => congrArg (List.tail ·.1) (control_optionalExpr (restores_invoke F) f.value m)
    refine Keeps.bind hvalue fun v => Keeps.bind (fun m => ?_) fun _ => ih
    show (m.scope.defineVariable f.name m.cells.size).tail = m.scope.tail
    cases m.scope <;> rfl

/-- The outermost scope of a run is one frame without variables. -/
theorem scope_ofRegistry (r : Registry) (w : World) : ∃ f : Frame Nat Callable,
    (Machine.ofRegistry r w).scope = [f] ∧ f.functions = r.table ∧ f.vars = fun _ => none := by
  suffices hfold : ∀ fs, ∃ f : Frame Nat Callable,
      Scope.defineHost Callable.native (Scope.root : RunScope) fs = [f] ∧
        f.vars = fun _ => none by
    obtain ⟨f, hf, hvars⟩ := hfold r.functions
    refine ⟨f, hf, ?_, hvars⟩
    funext x k
    rw [Registry.table, hf, Scope.function?, Scope.findFunction?]
    cases f.functions x k <;> rfl
  intro fs
  induction fs using List.reverseRecOn with
  | nil => exact ⟨{}, rfl, rfl⟩
  | append_singleton fs e ih =>
    obtain ⟨f, hf, hvars⟩ := ih
    refine ⟨f.defineFunction e.2.signature.name e.2.signature.arity (.native e.2), ?_, hvars⟩
    rw [Scope.defineHost, List.foldl_append]
    change Scope.defineFunction (Scope.defineHost _ _ fs) _ _ _ = _
    rw [hf]
    rfl

/-- A run of an accepted program has the same outcome on both hosts. -/
theorem related_source (h : r.Extends r') (hr : r.SelfContained) {a : Analysis} {s : Source}
    (hs : s.Checked r a) {w : World} (hw : w.Described r) (F : Nat) :
    Related Eq (fun m m' => m'.world = m.world) Eq (Eval.source r F s (.ofRegistry r w))
      (Eval.source r' F s (.ofRegistry r' w)) := by
  obtain ⟨Γ₁, Γ₂, hfields, hmethods, ⟨main, hmain, -⟩, hbodies⟩ := hs
  obtain ⟨hcalls, hknows₁⟩ := hfields.callsWithin
  have hreaches : ∀ x k, Γ₂.Knows x k → r.Reaches (Method.table s.methods) x k := by
    intro x k hx
    rcases hmethods.knows hx with hx | ⟨d, hd, rfl, rfl⟩
    · exact .inr (Registry.exists_table (hknows₁ ▸ hx))
    · exact .inl (Method.exists_table hd)
  have hcloses : r.Closes (Method.table s.methods) := by
    intro x k c hc
    obtain ⟨d, hd, rfl⟩ := Method.mem_of_table hc
    obtain ⟨signature, -, hbody⟩ := hbodies d hd
    exact ⟨d, rfl, hbody.callsWithin.mono hreaches⟩
  obtain ⟨f, hscope, hf, hvars⟩ := scope_ofRegistry r w
  obtain ⟨f', hscope', hf', hvars'⟩ := scope_ofRegistry r' w
  refine related_inScope ?_ fun m m' (hm : m'.world = m.world) => hm
  have hstart : Machine.Beside r r' (Method.table [])
      { Machine.ofRegistry r w with scope := (Machine.ofRegistry r w).scope.child }
      { Machine.ofRegistry r' w with scope := (Machine.ofRegistry r' w).scope.child } := by
    refine ⟨?_, rfl, nofun, hw⟩
    rw [hscope, hscope']
    exact .program rfl hf hf' (hvars'.trans hvars.symm)
  -- Fields are evaluated before the methods are declared.
  have hfields' := (simulates_extension h hr (M := Method.table []) nofun F).defineFields s.fields
    (hcalls.mono fun x k hx => .inr (Registry.exists_table hx)) hstart
  refine hfields'.andThen (fun _ _ hm => by rw [hm.rest]) fun _ _ m₁ m₁' hok _ hm => ?_
  have htail : m₁.scope.tail = [f] := by
    rw [(Eval.tail_defineFields F s.fields).of_ok hok, hscope]
    rfl
  obtain ⟨m₂, m₂', hdeclare, hdeclare', hm₂⟩ := hm.defineMethods htail s.methods
  rw [bind_of_ok hdeclare, bind_of_ok hdeclare']
  have hcall := (simulates_extension h hr hcloses F).call (List.forall_mem_nil _) "main"
    (hreaches "main" 0 ⟨main, hmain⟩) hm₂
  generalize Eval.call (Eval.invoke r F) "main" [] m₂ = o at hcall ⊢
  generalize Eval.call (Eval.invoke r' F) "main" [] m₂' = o' at hcall ⊢
  cases hcall with
  | ok hv hm₃ => exact .ok hv.1 (by rw [hm₃.rest])
  | error he hm₃ => exact .error he (by rw [hm₃.rest])

end

/-- **Extensions are conservative.**  A program that a host accepts has the same facts on every
    extension of the host, and the same value or error and the same effect on the world,
    whatever fuel it is given. -/
theorem extension_conservative {tokens : List Token} {r r' : Registry} {s : Source} {a : Analysis}
    (hp : parse tokens = .ok s) (ha : analyze r s = .ok a) (h : r.Extends r')
    (hr : r.SelfContained) :
    analyze r' s = .ok a ∧
      ∀ w, w.Described r → ∀ fuel, Program.value r' w fuel s = Program.value r w fuel s := by
  refine ⟨h.analyze ha, fun w hw fuel => ?_⟩
  have hchecked : s.Checked r a := (sound_of_analyze (nodup_ids_of_parse hp) ha).1
  have hrun := related_source h hr hchecked hw fuel
  rw [Program.value, Program.onFreshMachine, Program.value, Program.onFreshMachine, EStateM.run,
    EStateM.run]
  generalize Eval.source r fuel s (.ofRegistry r w) = o at hrun
  generalize Eval.source r' fuel s (.ofRegistry r' w) = o' at hrun
  cases hrun with
  | ok hv hw => exact Prod.ext (congrArg Except.ok hv.symm) hw
  | error he hw => exact Prod.ext (congrArg Except.error he.symm) hw

/-! ## The host with boxes, extended -/

section
variable {r : Registry} {vs : List Value}

namespace Native.Confined

theorem print (vs : List Value) : Confined r (Value.Described r) (Native.print vs) := by
  unfold Native.print
  split
  · rename_i v
    intro w hw
    rw [get_bind]
    cases w.text? v with
    | none => exact hw
    | some line => exact ⟨nofun, hw⟩
  · exact throw _

theorem logarithm (vs : List Value) : Confined r (Value.Described r) (Native.logarithm vs) := by
  unfold Native.logarithm
  split
  · split
    · exact pure nofun
    · exact throw _
  · exact throw _
  · exact throw _

theorem range (vs : List Value) : Confined r (Value.Described r) (Native.range vs) := by
  unfold Native.range
  split
  · refine bind (P := fun _ => True) (ofExcept fun _ _ => trivial) fun start _ => ?_
    refine bind (P := fun _ => True) (ofExcept fun _ _ => trivial) fun stop _ => ?_
    exact pure nofun
  · exact throw _

theorem standard {f : NativeFunction} (hf : f ∈ Registry.standardFunctions) (vs : List Value) :
    Confined r (Value.Described r) (f.body vs) := by
  simp only [Registry.standardFunctions, List.mem_cons, List.not_mem_nil, or_false] at hf
  rcases hf with rfl | rfl | rfl
  · exact print vs
  · exact logarithm vs
  · exact range vs

theorem setFields (ref : ObjectRef) : (names : List String) → {vs : List Value} →
    (∀ v ∈ vs, v.Described r) → Confined r (fun _ => True) (Native.setFields ref names vs)
  | [], _, _ => pure trivial
  | _ :: _, [], _ => pure trivial
  | _ :: names, _ :: _, hvs => by
    obtain ⟨hv, hvs⟩ := List.forall_mem_cons.1 hvs
    exact bind (setField hv) fun _ _ => setFields ref names hvs

/-- A new object of a described type. -/
theorem construct {type : TypeRef} (htype : type.index < r.types.size) (fieldNames names : List String)
    (hvs : ∀ v ∈ vs, v.Described r) :
    Confined r (Value.Described r) (Native.construct type fieldNames names vs) := by
  have hcreate : Confined r (fun ref : ObjectRef => ref.type = type)
      (modifyGet fun w => w.create type fieldNames) := by
    refine fun w hw => ⟨rfl, fun o ho => ?_⟩
    rcases Array.mem_push.1 ho with ho | rfl
    · exact hw o ho
    · intro e he
      obtain ⟨x, -, rfl⟩ := List.mem_map.1 he
      nofun
  refine bind hcreate fun ref href => bind (setFields ref names hvs) fun _ _ => pure ?_
  rintro _ ⟨⟩
  rwa [href]

theorem readField (x : String) (vs : List Value) :
    Confined r (Value.Described r) (Native.readField x vs) := by
  have hargument : Confined r (fun _ => True) (Native.argument 0 vs) := by
    unfold Native.argument
    split
    · exact pure trivial
    · exact throw _
  refine bind hargument fun v _ => bind (P := fun _ => True) (ofExcept fun _ _ => trivial) ?_
  exact fun ref _ w hw => ofExcept (fun u hu => hw.field hu) w hw

end Native.Confined

end

theorem selfContained_boxHost : boxHost.SelfContained := by
  refine ⟨fun f hf vs hvs => ?_, fun type x k f hf vs hvs => ?_⟩
  · rcases List.mem_append.1 (show f ∈ Registry.standardFunctions ++ [_] from hf) with hf | hf
    · exact .standard hf vs
    · obtain rfl := List.mem_singleton.1 hf
      exact .construct (by decide) _ _ hvs
  · obtain ⟨name, i⟩ := type
    cases i with
    | zero =>
      obtain rfl := method?_box (show (boxHost.describe boxRef).method? x k = some f from hf)
      exact .readField "content" vs
    | succ i =>
      have hsize : boxHost.types.size ≤ (⟨name, i + 1⟩ : TypeRef).index := Nat.le_add_left 1 i
      rw [Registry.describe_of_size_le hsize] at hf
      cases hf

/-- The host with boxes and, besides, crates and a function that has the name of the method
    that every program starts with. -/
def crateHost : Registry :=
  (boxHost.defineType { name := "Crate" }).2.define ⟨⟨"main", [], .nil⟩, Native.fail "crate"⟩

theorem extends_crateHost : boxHost.Extends crateHost :=
  .define _ (.defineType _ .refl (by decide)) (by decide)

theorem extension_conservative_crates : ∃ tokens s a,
    lex boxText = .ok tokens ∧ parse tokens = .ok s ∧ analyze boxHost s = .ok a ∧
      boxHost.Extends crateHost ∧ boxHost.SelfContained ∧ analyze crateHost s = .ok a ∧
      ∀ fuel, Program.value crateHost {} fuel s = Program.value boxHost {} fuel s := by
  have hcheck : (Program.process boxHost {} .checkOnly 1 boxText).1 = .accepted := by
    decide +kernel
  obtain ⟨s, a, hs, ha⟩ := exists_of_accepted boxText hcheck
  obtain ⟨tokens, hl, hp⟩ := Program.read_eq_ok.1 hs
  obtain ⟨ha', hrun⟩ := extension_conservative hp ha extends_crateHost selfContained_boxHost
  exact ⟨tokens, s, a, hl, hp, ha, extends_crateHost, selfContained_boxHost, ha',
    hrun {} (fun o ho => absurd ho (Array.not_mem_empty o))⟩

end TinyScript
