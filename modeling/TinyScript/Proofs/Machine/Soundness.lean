import TinyScript.Proofs.Machine.Misuse
import TinyScript.Proofs.Machine.Store

/-
  Type soundness, up to `NIL`.

  If no two object types that can be met share a name, and the functions of the host
  respect their signatures, then in every run of an accepted program every value is
  `NIL` or of the type that analysis has recorded for it, and so is every field of
  every object.  What can still go wrong is using `NIL`, dividing by zero, and calling
  too deep; all other errors come from the functions of the host.
-/

namespace TinyScript

open Eval

/-! ## Functions of the host -/

/-- The computation, if it succeeds, keeps the store in order and gives `NIL` or a value
    of the type.  Objects are shared, so it can neither take one away nor change its
    type. -/
def Native.Respects (r : Registry) (U : TypeRef → Prop) (w : World) (t : Ty)
    (body : Native Value) : Prop :=
  ∀ v w', body w = .ok v w' → w'.HasType t v ∧ w'.Typed r U ∧ w.Later w'

/-- The functions and methods of the host respect their signatures. -/
structure Registry.WellBehaved (r : Registry) (U : TypeRef → Prop) : Prop where
  functions : ∀ f ∈ r.functions.map Prod.snd, ∀ w vs, w.Typed r U →
    List.Forall₂ w.HasType f.signature.parameters vs →
    Native.Respects r U w f.signature.result (f.body vs)
  methods : ∀ type, U type → ∀ x k f, (r.describe type).method? x k = some f → ∀ w ref vs,
    w.Typed r U → w.HasType (.object type) (.object ref) →
    List.Forall₂ w.HasType f.signature.parameters vs →
    Native.Respects r U w f.signature.result (f.body (.object ref :: vs))

section
variable {r : Registry} {U : TypeRef → Prop} {w : World}

/-- The output and the tally do not matter. -/
theorem World.Typed.congr {w' : World} (hw : w.Typed r U) (h : w'.objects = w.objects) :
    w'.Typed r U ∧ w.Later w' := by
  have hlater : w.Later w' := fun i o ho => ⟨o, by rw [h, ho], rfl⟩
  refine ⟨fun i o ho => ?_, hlater⟩
  rw [h] at ho
  have hot := hw i o ho
  exact ⟨hot.type, hot.names, fun x v t hx ht => (hot.fields x v t hx ht).later hlater⟩

theorem Native.respects_of_unchanged {t : Ty} {body : Native Value} (hw : w.Typed r U)
    (h : ∀ v w', body w = .ok v w' → w' = w ∧ w.HasType t v) : body.Respects r U w t := by
  intro v w' hv
  obtain ⟨rfl, ht⟩ := h v w' hv
  exact ⟨ht, hw, .refl _⟩

/-- What the standard functions give is of their result types and no object, and they do
    not touch objects. -/
theorem standard_eq_ok {f : NativeFunction} (hf : f ∈ Registry.standardFunctions)
    {vs : List Value} {v : Value} {w' : World} (h : f.body vs w = .ok v w') :
    v.Inhabits f.signature.result ∧ w'.Holds v ∧ w'.objects = w.objects := by
  simp only [Registry.standardFunctions, List.mem_cons, List.not_mem_nil, or_false] at hf
  rcases hf with rfl | rfl | rfl
  · match vs with
    | [_] =>
      obtain ⟨line, -, rfl, rfl⟩ := Native.print_eq_ok.1 h
      exact ⟨rfl, trivial, rfl⟩
    | [] | _ :: _ :: _ => cases h
  · simp only [Native.logarithm] at h
    split at h
    · rename_i d
      cases hd : d.logarithm? with
      | some q =>
        rw [hd] at h
        cases h
        exact ⟨rfl, trivial, rfl⟩
      | none =>
        rw [hd] at h
        cases h
    · cases h
    · cases h
  · simp only [Native.range] at h
    split at h
    · rename_i x y
      cases x <;> cases y <;> cases h
      exact ⟨rfl, trivial, rfl⟩
    · cases h

/-- The standard functions respect their signatures. -/
theorem respects_standard {f : NativeFunction} (hf : f ∈ Registry.standardFunctions)
    (hw : w.Typed r U) (vs : List Value) :
    Native.Respects r U w f.signature.result (f.body vs) := by
  intro v w' h
  obtain ⟨hv, hheld, hobjects⟩ := standard_eq_ok hf h
  exact ⟨⟨hheld, Or.inr hv⟩, hw.congr hobjects⟩

end

section
variable {r : Registry} {a : Analysis} {U : TypeRef → Prop}

/-- The discipline of values that are `NIL` or of the right type. -/
def Discipline.upToNil (h1 : r.Unambiguous U) (h2 : r.WellBehaved U)
    (hm : ∀ type, a.Mentions type → U type) : Discipline r a where
  val := World.HasType
  world := World.Typed r U
  later := World.Later
  later_refl := .refl
  later_trans := .trans
  val_later := .later
  val_accepts := fun hacc ⟨hheld, hv⟩ => ⟨hheld, hv.imp_right (·.accepts hacc)⟩
  val_literal := fun _ l => ⟨by cases l <;> trivial, Or.inr (Value.inhabits_ofLiteral l)⟩
  val_binary := fun ho hr ⟨_, hx⟩ ⟨_, hy⟩ h => by
    have hz := binary_inhabits hr ho hx hy h
    exact ⟨hr.holds hz, Or.inr hz⟩
  val_field := fun hmen hw h hx hf => by
    obtain ⟨v', hf', hv'⟩ := h.field h1 hw (hm _ hmen) hx
    rw [hf] at hf'
    exact Except.ok.inj hf' ▸ hv'
  setField := fun hmen hw h hx hv hf => by
    obtain ⟨w₁, hf', hw₁, hlater⟩ := h.setField h1 hw (hm _ hmen) hx hv
    rw [hf] at hf'
    exact Except.ok.inj hf' ▸ ⟨hw₁, hlater⟩
  function := fun hf hw hvs h => h2.functions _ hf _ _ hw hvs _ _ h
  method := fun hmen hf hg hw h hvs hbody => by
    obtain ⟨_, -, -, -, hdescribe⟩ := h.object h1 hw (hm _ hmen)
    rw [hdescribe, hf] at hg
    obtain rfl := Option.some.inj hg
    exact h2.methods _ (hm _ hmen) _ _ _ hf _ _ _ hw h hvs _ _ hbody

instance {h1 : r.Unambiguous U} {h2 : r.WellBehaved U} {hm : ∀ type, a.Mentions type → U type} :
    (Discipline.upToNil h1 h2 hm).Lenient := ⟨fun _ _ => ⟨.intro, Or.inl rfl⟩⟩

end

/-! ## What a run keeps -/

/-- The signature that analysis knows a callable by. -/
def Callable.signature? (a : Analysis) : Callable → Option Signature
  | .native f => some f.signature
  | .declared d => a.signatures[d.node.id]?

/-- The errors of a program itself: it uses `NIL` for something else, divides by zero, or
    calls too deep. -/
inductive RuntimeError.Residual : RuntimeError → Prop
  | condition : Residual (.expectedBoolean Value.nil.kindName)
  | iterable : Residual (.expectedIterable Value.nil.kindName)
  | object : Residual (.notAnObject Value.nil.kindName)
  | left (o : BinaryOperator) (v : Value) :
      Residual (.invalidOperands o Value.nil.kindName v.kindName)
  | right (o : BinaryOperator) (v : Value) :
      Residual (.invalidOperands o v.kindName Value.nil.kindName)
  | division : Residual .divisionByZero
  | depth : Residual (.callDepthExceeded callLimit)

section
variable {r : Registry} {a : Analysis} {D : Discipline r a} {F : Nat} {m m' : Machine} {v : Value}

namespace Activity.Ready

theorem world {c : Activity} (h : c.Ready D) : D.world c.machine.world := by
  obtain ⟨F, task, m⟩ := c
  cases task with
  | expr e | condition e | exprs es =>
    obtain ⟨Δ, Γ, hat, -⟩ := h
    exact hat.typed.world
  | call callable S vs =>
    obtain ⟨Δ, Γ, signature, hm, -⟩ := h
    exact hm.world
  | native body | define x v | method d => exact h.1
  | parameters ps vs | stmt st | stmts ss | rounds x ss n i | loop e ss n =>
    obtain ⟨Δ, Γ, Γ', _, hat, -⟩ := h
    exact hat.typed.world
  | fields fs =>
    obtain ⟨Δ, Γ, Γ', hat, -⟩ := h
    exact hat.typed.world
  | methods ds =>
    obtain ⟨Δ, Γ, Γ', hm, -⟩ := h
    exact hm.world
  | source s => exact h.1.typed.world

theorem fits {e : Expr} (h : Activity.Ready D ⟨F, .expr e, m⟩)
    (he : Eval.expr r (invoke r F) e m = .ok v m') : D.Fits m'.world e v := by
  obtain ⟨Δ, Γ, hat, hs⟩ := h
  obtain ⟨-, -, -, hf⟩ := hat.expr hs he
  exact hf

/-- The initial value of a variable fits its declared type. -/
theorem declaration {d : Declaration} (h : Activity.Ready D ⟨F, .stmt (.declare d), m⟩)
    (he : optionalExpr r (invoke r F) d.value m = .ok v m') :
    ∃ t, a.declarations[d.node.id]? = some t ∧ D.val m'.world t v := by
  obtain ⟨Δ, Γ, Γ', result, hat, hp, hst⟩ := h
  cases hst with
  | declare ho hs _ _ =>
    obtain ⟨t, ht, hr⟩ := ho
    obtain ⟨-, -, hv⟩ := hat.optionalExpr hs hr (hp.declaration ht) he
    exact ⟨t, ht, hv⟩

/-- The initial value of a global variable fits its declared type. -/
theorem field {f : Field} {fs : List Field} (h : Activity.Ready D ⟨F, .fields (f :: fs), m⟩)
    (he : optionalExpr r (invoke r F) f.value m = .ok v m') :
    ∃ t, a.declarations[f.node.id]? = some t ∧ D.val m'.world t v := by
  obtain ⟨Δ, Γ, Γ', hat, hp, hst⟩ := h
  cases hst with
  | cons ho hs _ _ _ =>
    obtain ⟨t, ht, hr⟩ := ho
    obtain ⟨-, -, hv⟩ := hat.optionalExpr hs hr (hp.field ht) he
    exact ⟨t, ht, hv⟩

/-- A variable or field is only assigned values that fit its type. -/
theorem assignment {receiver value : Expr}
    (h : Activity.Ready D ⟨F, .stmt (.assign receiver value), m⟩) {w : World}
    (hv : D.Fits w value v) : ∃ t, a.types[receiver.id]? = some t ∧ D.val w t v := by
  obtain ⟨Δ, Γ, Γ', result, hat, -, hst⟩ := h
  cases hst with
  | assign ho _ _ =>
    obtain ⟨-, t, ht, hacc⟩ := ho
    exact ⟨t, ht, hv.accepts hacc⟩

/-- Arguments fit the parameters of the function, and its result fits its result type. -/
theorem call {callable : Callable} {S : RunScope} {vs : List Value}
    (h : Activity.Ready D ⟨F, .call callable S vs, m⟩) :
    ∃ signature, callable.signature? a = some signature ∧
      List.Forall₂ (D.val m.world) signature.parameters vs ∧
      ∀ v m', invoke r F callable S vs m = .ok v m' → D.val m'.world signature.result v := by
  obtain ⟨Δ, Γ, signature, hm, hS, himp, hvs⟩ := h
  refine ⟨signature, ?_, hvs, fun v m' hi => ?_⟩
  · cases callable with
    | native f => exact congrArg some himp.2
    | declared d => exact himp.1.1
  · obtain ⟨-, -, -, hv⟩ := invoke_keeps D F hm hS himp hvs hi
    exact hv

/-- A program that ends gives the result of its `main`. -/
theorem result {s : Source} (h : Activity.Ready D ⟨F, .source s, m⟩)
    (he : source r F s m = .ok v m') : D.val m'.world .integer v ∧ D.world m'.world := by
  simp only [source, inChild_eq_ok, bind_eq_ok, Eval.call, get_bind] at he
  obtain ⟨m₃, ⟨_, m₁, hf, _, m₂, hd, hc⟩, rfl⟩ := he
  obtain ⟨callable, S, hfind, -, hmain⟩ := ready_main h hf hd
  simp only [List.length_nil, hfind] at hc
  exact hmain v m₃ hc

end Activity.Ready

end

/-! ## Errors that remain -/

section
variable {w : World} {x y : Value} {e : RuntimeError}

theorem World.HasType.asBoolean_error (h : w.HasType .boolean x) (he : x.asBoolean = .error e) :
    e.Residual := by
  rcases h.2 with rfl | hx
  · cases he
    exact .condition
  · obtain ⟨b, rfl⟩ := Value.inhabits_boolean.1 hx
    cases he

theorem World.HasType.asRange_error (h : w.HasType .integerIterable x)
    (he : x.asRange = .error e) : e.Residual := by
  rcases h.2 with rfl | hx
  · cases he
    exact .iterable
  · obtain ⟨g, rfl⟩ := Value.inhabits_integerIterable.1 hx
    cases he

theorem World.HasType.asObject_error {type : TypeRef} (h : w.HasType (.object type) x)
    (he : x.asObject = .error e) : e.Residual := by
  rcases h.2 with rfl | ⟨ref, rfl, -⟩
  · cases he
    exact .object
  · cases he

theorem World.HasType.binary_error {o : BinaryOperator} {s t u : Ty} (hr : BinaryRule o s t u)
    (ho : ¬(o = .and ∨ o = .or)) (hx : w.HasType s x) (hy : w.HasType t y)
    (he : w.binary o x y = .error (.error e)) : e.Residual := by
  rcases hx.2 with rfl | hx
  · rcases Eval.binary_error he with rfl | rfl
    · exact .division
    · exact .left o y
  · rcases hy.2 with rfl | hy
    · rcases Eval.binary_error he with rfl | rfl
      · exact .division
      · exact .right o x
    · rw [binary_error_of_inhabits hr ho hx hy he]
      exact .division

end

section
variable {r : Registry} {a : Analysis} {U : TypeRef → Prop} {e : RuntimeError} {c : Activity}
  {h1 : r.Unambiguous U} {h2 : r.WellBehaved U} {hU : ∀ type, a.Mentions type → U type}

/-- Where all is ready and typed, an error is one of the program itself or raised by a
    native body. -/
theorem Raises.residual_or_native (h : Raises r c (.error e))
    (hc : c.Ready (Discipline.upToNil h1 h2 hU)) :
    e.Residual ∨ ∃ F body m w, c = ⟨F, .native body, m⟩ ∧ body m.world = .error (.error e) w := by
  refine (h.misuse_or_native hc).imp_left fun hmisuse => ?_
  cases hmisuse with
  | operator hrule ho hx hy hb => exact World.HasType.binary_error hrule ho hx hy hb
  | condition hx hb => exact World.HasType.asBoolean_error hx hb
  | iterable hx hb => exact World.HasType.asRange_error hx hb
  | object _ hx hb => exact World.HasType.asObject_error hx hb
  | field hmen hw hx hf hb =>
    obtain ⟨v, hv, -⟩ := World.HasType.field h1 hw (hU _ hmen) hx hf
    rw [hb] at hv
    cases hv
  | setField hmen hw hx hf hv hb =>
    obtain ⟨w', hw', -⟩ := World.HasType.setField h1 hw (hU _ hmen) hx hf hv
    rw [hb] at hw'
    cases hw'
  | method hmen hw hx hf hb =>
    obtain ⟨-, -, -, -, hdescribe⟩ := World.HasType.object h1 hw (hU _ hmen) hx
    rw [hdescribe, hf] at hb
    cases hb
  | depth => exact .depth

end

/-! ## Soundness -/

/-- Everything that happens in a run is as analysis says, up to `NIL`. -/
structure Program.Sound (r : Registry) (U : TypeRef → Prop) (a : Analysis) (w : World)
    (fuel : Nat) (s : Source) : Prop where
  /-- Values fit the types recorded for their expressions. -/
  expression : ∀ F e m v m', During r (.start r w fuel s) ⟨F, .expr e, m⟩ →
    Eval.expr r (invoke r F) e m = .ok v m' →
    ∃ t, a.types[e.id]? = some t ∧ m'.world.HasType t v
  /-- Local variables start with values of their declared types. -/
  declaration : ∀ F d m v m', During r (.start r w fuel s) ⟨F, .stmt (.declare d), m⟩ →
    optionalExpr r (invoke r F) d.value m = .ok v m' →
    ∃ t, a.declarations[d.node.id]? = some t ∧ m'.world.HasType t v
  /-- Global variables start with values of their declared types. -/
  field : ∀ F f fs m v m', During r (.start r w fuel s) ⟨F, .fields (f :: fs), m⟩ →
    optionalExpr r (invoke r F) f.value m = .ok v m' →
    ∃ t, a.declarations[f.node.id]? = some t ∧ m'.world.HasType t v
  /-- Variables and fields are assigned values of their types. -/
  assignment : ∀ F F' receiver value m m₁ v m',
    During r (.start r w fuel s) ⟨F, .stmt (.assign receiver value), m⟩ →
    During r (.start r w fuel s) ⟨F', .expr value, m₁⟩ →
    Eval.expr r (invoke r F') value m₁ = .ok v m' →
    ∃ t, a.types[receiver.id]? = some t ∧ m'.world.HasType t v
  /-- Arguments and results fit the signatures of the functions called. -/
  call : ∀ F callable S vs m, During r (.start r w fuel s) ⟨F, .call callable S vs, m⟩ →
    ∃ signature, callable.signature? a = some signature ∧
      List.Forall₂ m.world.HasType signature.parameters vs ∧
      ∀ v m', invoke r F callable S vs m = .ok v m' → m'.world.HasType signature.result v
  /-- Fields of objects hold values of their declared types. -/
  store : ∀ c, During r (.start r w fuel s) c → c.machine.world.Typed r U
  /-- The result is an integer, and the store is in order at the end. -/
  result : ∀ v w', Program.value r w fuel s = (.ok v, w') →
    w'.HasType .integer v ∧ w'.Typed r U
  /-- Errors are those of the program itself, or raised by a native body. -/
  error : ∀ e w', Program.value r w fuel s = (.error (.error e), w') →
    e.Residual ∨ ∃ F body m w'', During r (.start r w fuel s) ⟨F, .native body, m⟩ ∧
      r.Provides body ∧ body m.world = .error (.error e) w''

/-- **Type soundness**: in every run of an accepted program all values, variables and
    fields are `NIL` or of their types. -/
theorem sound_of_accepted {tokens : List Token} {r : Registry} {U : TypeRef → Prop} {s : Source}
    {a : Analysis} {w : World} (h1 : r.Unambiguous U) (h2 : r.WellBehaved U)
    (hp : parse tokens = .ok s) (ha : analyze r s = .ok a) (hw : w.Typed r U) (fuel : Nat) :
    Program.Sound r U a w fuel s := by
  obtain ⟨hchecked, hwithin⟩ := sound_of_analyze (nodup_ids_of_parse hp) ha
  have hU : ∀ type, a.Mentions type → U type := fun type ⟨id, ht⟩ =>
    within_of_mentions hchecked (hchecked.consistent.complete hwithin) h1 ht
  have hstart : (Activity.start r w fuel s).Ready (Discipline.upToNil h1 h2 hU) :=
    ready_start hp ha hw
  have hready : ∀ c, During r (.start r w fuel s) c → c.Ready (Discipline.upToNil h1 h2 hU) :=
    fun c hc => hc.ready hstart
  refine ⟨fun F e m v m' hc he => (hready _ hc).fits he,
    fun F d m v m' hc he => (hready _ hc).declaration he,
    fun F f fs m v m' hc he => (hready _ hc).field he,
    fun F F' receiver value m m₁ v m' hc hc' he =>
      (hready _ hc).assignment ((hready _ hc').fits he),
    fun F callable S vs m hc => (hready _ hc).call,
    fun c hc => (hready c hc).world, fun v w' h => ?_, fun e w' h => ?_⟩
  · obtain ⟨m', hm', rfl⟩ := Program.value_eq_ok.1 h
    exact hstart.result hm'
  · obtain ⟨c, hduring, hraises⟩ := exists_raises_of_value h
    refine (hraises.residual_or_native (hready c hduring)).imp_right ?_
    rintro ⟨F, body, m, w'', rfl, hbody⟩
    exact ⟨F, body, m, w'', hduring, (hready _ hduring).2, hbody⟩

/-! ## A host with boxes -/

/-- A type of objects that hold an integer. -/
def boxType : ObjectType :=
  (ObjectType.withField { name := "Box" } "content" .integer).withMethod
    ⟨⟨"open", [], .integer⟩, Native.readField "content"⟩

/-- How boxes refer to their type. -/
def boxRef : TypeRef := ⟨"Box", 0⟩

/-- A host that makes boxes. -/
def boxHost : Registry :=
  (Registry.standard.defineType boxType).2.define
    ⟨⟨"box", [.integer], .object boxRef⟩, Native.construct boxRef ["content"] ["content"]⟩

theorem fieldType?_box {x : String} {t : Ty}
    (h : (boxHost.describe boxRef).fieldType? x = some t) : x = "content" ∧ t = .integer := by
  change (if "content" = x then some Ty.integer else none) = some t at h
  split at h <;> cases h
  exact ⟨Eq.symm ‹_›, rfl⟩

theorem method?_box {x : String} {k : Nat} {f : NativeFunction}
    (h : (boxHost.describe boxRef).method? x k = some f) :
    f = ⟨⟨"open", [], .integer⟩, Native.readField "content"⟩ := by
  change (if ("open", 0) = (x, k) then some _ else none) = some f at h
  split at h <;> cases h
  rfl

theorem unambiguous_boxHost : boxHost.Unambiguous (· = boxRef) := by
  refine ⟨fun s t hs ht _ => hs ▸ ht ▸ rfl, fun name type h => ?_, fun f hf => ?_, ?_, ?_⟩
  · change ((if "Box" = name then some 0 else none).map fun i => ⟨name, i⟩) = some type at h
    split at h <;> cases h
    subst name
    rfl
  · change f ∈ Registry.standardFunctions ++ [_] at hf
    simp only [Registry.standardFunctions, List.cons_append, List.nil_append, List.mem_cons,
      List.not_mem_nil, or_false] at hf
    rcases hf with rfl | rfl | rfl | rfl <;> simp [Signature.Within, Ty.Within]
  · rintro _ rfl x t h
    rw [(fieldType?_box h).2]
    trivial
  · rintro _ rfl x k f h
    rw [method?_box h]
    simp [Signature.Within, Ty.Within]

theorem wellBehaved_boxHost : boxHost.WellBehaved (· = boxRef) := by
  refine ⟨fun f hf w vs hw hvs => ?_, ?_⟩
  · rcases List.mem_append.1 (show f ∈ Registry.standardFunctions ++ [_] from hf) with hf | hf
    · exact respects_standard hf hw vs
    · obtain rfl := List.mem_singleton.1 hf
      have hbox : boxRef = boxRef := rfl
      obtain ⟨hw₁, hlater₁, hnew⟩ := hw.create hbox
      cases hvs with
      | @cons _ x _ _ hx _ =>
        have hcontent : (boxHost.describe boxRef).fieldType? "content" = some .integer := rfl
        obtain ⟨w₂, hset, hw₂, hlater₂⟩ :=
          hnew.setField unambiguous_boxHost hw₁ hbox hcontent (hx.later hlater₁)
        intro v w' h
        simp only [Native.construct, Native.setFields, bind_eq_ok, modifyGet_apply, pure_apply,
          EStateM.Result.ok.injEq, Native.setField_eq_ok] at h
        obtain ⟨ref, _, ⟨rfl, rfl⟩, _, _, ⟨_, w₃, hset', -, rfl⟩, rfl, rfl⟩ := h
        obtain rfl : w₂ = w₃ := Except.ok.inj (hset.symm.trans hset')
        exact ⟨hnew.later hlater₂, hw₂, hlater₁.trans hlater₂⟩
  · rintro _ rfl x k f h w ref vs hw hobj hvs
    obtain rfl := method?_box h
    have hcontent : (boxHost.describe boxRef).fieldType? "content" = some .integer := rfl
    obtain ⟨v₁, hfield, hv₁⟩ := hobj.field unambiguous_boxHost hw rfl hcontent
    refine Native.respects_of_unchanged hw fun v w' hv => ?_
    change Native.ofExcept (w.field ref "content") w = .ok v w' at hv
    rw [hfield] at hv
    cases hv
    exact ⟨rfl, hv₁⟩

/-- A program that makes a box, changes its content and opens it. -/
def boxText : String :=
  "DEF main(): Integer DO LET b = box(1); b.content = b.content + 41; RETURN b.open(); END"

/-- Type soundness of that program, on that host. -/
theorem sound_of_accepted_box : ∃ s a, Program.read boxText = .ok s ∧
    analyze boxHost s = .ok a ∧ Program.Sound boxHost (· = boxRef) a {} 1 s := by
  have hcheck : (Program.process boxHost {} .checkOnly 1 boxText).1 = .accepted := by
    decide +kernel
  obtain ⟨s, a, hs, ha⟩ := exists_of_accepted boxText hcheck
  obtain ⟨tokens, -, hp⟩ := Program.read_eq_ok.1 hs
  have hw : ({} : World).Typed boxHost (· = boxRef) := fun i o ho => by simp at ho
  exact ⟨s, a, hs, ha, sound_of_accepted unambiguous_boxHost wellBehaved_boxHost hp ha hw 1⟩

end TinyScript
