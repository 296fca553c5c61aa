import TinyScript.Proofs.Machine.Binding

/-
  Callers and what they call.

  A method of the program runs in a frame of its own inside the scope it was declared in.
  Every scope that is reached in its course is made of frames made since, inside that scope,
  also when further methods are called.  So it overwrites cells made since and cells of
  variables in that scope, and no others.  The variables of all methods in progress are
  neither: they stand in frames made since the program's own scope was finished.

  * `Scope.Binds`: a cell is that of a variable of a scope;
  * `Machine.Spares`, `Machine.Apart`: a machine has left cells alone, and goes on doing so;
  * `cells_of_invoke`: a call leaves alone what its closure does not bind;
  * `Machine.Inside`: the scope of a method in progress;
  * `callers_keep_variables`: a call leaves the variables of its callers alone.
-/

namespace TinyScript

open Eval

/-! ## Variables of a scope -/

/-- The cell is that of a variable of the scope, which another one may hide. -/
def Scope.Binds (S : RunScope) (k : Nat) : Prop := ∃ f ∈ S, ∃ x, f.vars x = some k

namespace Scope

variable {S T : RunScope} {k n : Nat} {x : String}

theorem Binds.of_suffix (h : Binds T k) (hT : T <:+ S) : Binds S k := by
  obtain ⟨f, hf, hx⟩ := h
  exact ⟨f, hT.subset hf, hx⟩

theorem binds_append : Binds (S ++ T) k ↔ Binds S k ∨ Binds T k := by
  constructor
  · rintro ⟨f, hf, hx⟩
    rcases List.mem_append.1 hf with hf | hf
    · exact .inl ⟨f, hf, hx⟩
    · exact .inr ⟨f, hf, hx⟩
  · rintro (⟨f, hf, hx⟩ | ⟨f, hf, hx⟩)
    · exact ⟨f, List.mem_append_left _ hf, hx⟩
    · exact ⟨f, List.mem_append_right _ hf, hx⟩

theorem binds_child : Binds S.child k ↔ Binds S k := by
  constructor
  · rintro ⟨f, hf, x, hx⟩
    rcases List.mem_cons.1 hf with rfl | hf
    · cases hx
    · exact ⟨f, hf, x, hx⟩
  · exact fun h => h.of_suffix (List.suffix_cons _ _)

theorem binds_of_lookup? (h : S.lookup? x = some k) : Binds S k := by
  induction S with
  | nil => cases h
  | cons f S ih =>
    rw [lookup?] at h
    split at h
    · rename_i c hc
      cases h
      exact ⟨f, List.mem_cons_self, x, hc⟩
    · exact (ih h).of_suffix (List.suffix_cons _ _)

/-- A definition binds one more cell. -/
theorem binds_of_defineVariable (h : Binds (S.defineVariable x n) k) : k = n ∨ Binds S k := by
  obtain ⟨f, hf, y, hy⟩ := h
  have hvar : ∀ g : Frame Nat Callable, (g.defineVariable x n).vars y = some k →
      k = n ∨ g.vars y = some k := by
    intro g hg
    rw [Frame.vars_defineVariable] at hg
    split at hg
    · exact .inl (Option.some.inj hg).symm
    · exact .inr hg
  cases S with
  | nil =>
    obtain rfl := List.mem_singleton.1 hf
    rcases hvar {} hy with rfl | hy
    · exact .inl rfl
    · cases hy
  | cons g S =>
    rcases List.mem_cons.1 hf with rfl | hf
    · rcases hvar g hy with rfl | hy
      · exact .inl rfl
      · exact .inr ⟨g, List.mem_cons_self, y, hy⟩
    · exact .inr ⟨f, List.mem_cons_of_mem g hf, y, hy⟩

theorem Binds.of_defineFunction {c : Callable} (h : Binds (S.defineFunction x n c) k) :
    Binds S k := by
  obtain ⟨f, hf, y, hy⟩ := h
  cases S with
  | nil =>
    obtain rfl := List.mem_singleton.1 hf
    cases hy
  | cons g S =>
    rcases List.mem_cons.1 hf with rfl | hf
    · exact ⟨g, List.mem_cons_self, y, hy⟩
    · exact ⟨f, List.mem_cons_of_mem g hf, y, hy⟩

end Scope

/-! ## What a call does to cells -/

section
variable {r : Registry} {α β : Type}

theorem after_inScope (S : RunScope) (step : Eval α) (m : Machine) :
    after (inScope S step) m = { after step { m with scope := S } with scope := m.scope } := by
  rw [after, after, Eval.inScope]
  cases step { m with scope := S } <;> rfl

theorem cells_after_deeper (step : Eval α) (m : Machine) :
    (after (deeper step) m).cells = (after step { m with depth := m.depth + 1 }).cells := by
  rw [after, after, Eval.deeper]
  cases step { m with depth := m.depth + 1 } <;> rfl

theorem after_bind_pure (step : Eval α) (f : α → β) (m : Machine) :
    after (step >>= fun a => pure (f a)) m = after step m := by
  cases hs : step m with
  | ok a m₁ =>
    rw [after_of_ok hs]
    exact after_of_ok (bind_of_ok hs)
  | error e m₁ =>
    rw [after_of_error hs]
    exact after_of_error (bind_of_error hs)

theorem after_bind_of_ok {step : Eval α} {f : α → Eval β} {a : α} {m m₁ : Machine}
    (h : step m = .ok a m₁) : after (step >>= f) m = after (f a) m₁ := by
  rw [after, bind_of_ok h, ← after]

/-- A call does nothing to cells, unless it runs the body of a method of the program. -/
theorem cells_after_invoke (F : Nat) (c : Callable) (T : RunScope) (vs : List Value)
    (m : Machine) :
    (after (invoke r F c T vs) m).cells = m.cells ∨
      ∃ d F', c = .declared d ∧ F = F' + 1 ∧
        (after (invoke r F c T vs) m).cells =
          (after (do defineParameters d.parameters vs; stmts r (invoke r F') F' d.body)
            { m with scope := T.child, depth := m.depth + 1 }).cells := by
  cases hcheck : ofExcept (checkArity c.name vs c.arity) m with
  | error e m₁ =>
    obtain ⟨-, -, -, rfl⟩ := ofExcept_eq_error.1 hcheck
    rw [invoke.eq_def, after_of_error (bind_of_error hcheck)]
    exact .inl rfl
  | ok u m₁ =>
    obtain ⟨-, rfl⟩ := ofExcept_eq_ok.1 hcheck
    cases c with
    | native g =>
      rw [invoke.eq_def, after_bind_of_ok hcheck]
      exact .inl (cells_native _ m₁)
    | declared d =>
      by_cases hd : m₁.depth = callLimit
      · rw [invoke.eq_def, after_bind_of_ok hcheck, after]
        simp only [get_bind, if_pos hd]
        exact .inl rfl
      · cases F with
        | zero =>
          rw [invoke.eq_def, after_bind_of_ok hcheck, after]
          simp only [get_bind, if_neg hd]
          exact .inl rfl
        | succ F =>
          refine .inr ⟨d, F, rfl, rfl, ?_⟩
          have hrun : invoke r (F + 1) (.declared d) T vs m₁ =
              (do
                let completion ← deeper <| inScope T.child do
                  defineParameters d.parameters vs
                  stmts r (invoke r F) F d.body
                return result completion) m₁ := by
            rw [invoke.eq_def, bind_of_ok hcheck]
            simp only [get_bind, if_neg hd]
          rw [after, hrun, ← after, after_bind_pure, cells_after_deeper, after_inScope]

end

/-! ## What a call leaves alone -/

/-- Scope and cells. -/
def Machine.variables (m : Machine) : RunScope × Array Value := (m.scope, m.cells)

/-- The cells that `old` has are as they were, but for those of variables of its scope. -/
structure Machine.Spares (old m : Machine) : Prop where
  size : old.cells.size ≤ m.cells.size
  cells : ∀ k < old.cells.size, ¬Scope.Binds old.scope k → m.cells[k]? = old.cells[k]?

/-- The same, and the machine is in a frame made since, inside a scope that `old` was in. -/
structure Machine.Apart (old m : Machine) : Prop extends Machine.Spares old m where
  entered : ∃ news base, old.Entered m news base ∧ news ≠ []

/-- A run beside itself that leaves cells of `old` alone. -/
def Pairing.apart (old : Machine) : Pairing where
  machines m m' := m = m' ∧ old.Apart m
  cells c c' := c = c' ∧ (c < old.cells.size → Scope.Binds old.scope c)
  values _ := True

section
variable {old m m' : Machine} {x : String} {c : Nat}

namespace Machine

theorem Spares.of_cells (h : old.Spares m) (hcells : m'.cells = m.cells) : old.Spares m' :=
  ⟨hcells ▸ h.size, hcells ▸ h.cells⟩

theorem Apart.of_variables (h : old.Apart m) (hv : m'.variables = m.variables) : old.Apart m' := by
  obtain ⟨hscope, hcells⟩ := Prod.mk.inj hv
  obtain ⟨news, base, he, hne⟩ := h.entered
  refine ⟨h.toSpares.of_cells hcells, news, base, he.later ⟨hscope, ?_⟩, hne⟩
  exact Nat.le_of_eq (congrArg Array.size hcells).symm

/-- Going back to the scope of a machine that was apart. -/
theorem Apart.back (h : old.Apart m) (hm' : old.Spares m') :
    old.Apart { m' with scope := m.scope } := by
  obtain ⟨news, base, he, hne⟩ := h.entered
  exact ⟨⟨hm'.size, hm'.cells⟩, news, base, ⟨he.scope, he.news, he.base, hm'.size⟩, hne⟩

theorem Apart.child (h : old.Apart m) : old.Apart { m with scope := m.scope.child } := by
  obtain ⟨news, base, he, hne⟩ := h.entered
  exact ⟨⟨h.size, h.cells⟩, _, base, he.child, List.cons_ne_nil _ _⟩

theorem Apart.define (h : old.Apart m) (x : String) (v : Value) : old.Apart (m.define x v) := by
  obtain ⟨news, base, he, hne⟩ := h.entered
  obtain ⟨f, news, rfl⟩ := List.exists_cons_of_ne_nil hne
  have hnew := he.define x v
  refine ⟨⟨hnew.cells, fun k hk hfree => ?_⟩, _, base, hnew, List.cons_ne_nil _ _⟩
  have hlt : k < m.cells.size := Nat.lt_of_lt_of_le hk h.size
  show (m.cells.push v)[k]? = _
  rw [Array.getElem?_push_lt hlt, ← Array.getElem?_eq_getElem hlt, h.cells k hk hfree]

/-- The cell of a variable is one made since, or bound in the scope of `old`. -/
theorem Apart.cell? (h : old.Apart m) (hc : m.cell? x = some c) (hlt : c < old.cells.size) :
    Scope.Binds old.scope c := by
  obtain ⟨news, base, he, -⟩ := h.entered
  have hbinds : Scope.Binds (news ++ base) c := he.scope ▸ Scope.binds_of_lookup? hc
  rcases Scope.binds_append.1 hbinds with ⟨f, hf, y, hy⟩ | hbase
  · have hle : old.cells.size ≤ c := (he.news f hf).vars y c hy
    omega
  · exact hbase.of_suffix he.base

theorem Apart.store (h : old.Apart m) (hc : c < old.cells.size → Scope.Binds old.scope c)
    (v : Value) : old.Apart { m with cells := m.cells.setIfInBounds c v } := by
  obtain ⟨news, base, he, hne⟩ := h.entered
  have hsize : (m.cells.setIfInBounds c v).size = m.cells.size := Array.size_setIfInBounds
  refine ⟨⟨hsize ▸ h.size, fun k hk hfree => ?_⟩, news, base, he.later ⟨rfl, ?_⟩, hne⟩
  · have hne : c ≠ k := by
      rintro rfl
      exact hfree (hc hk)
    rw [← h.cells k hk hfree]
    exact Array.getElem?_setIfInBounds_ne hne
  · exact Nat.le_of_eq hsize.symm

end Machine

variable {r : Registry} {α : Type} {R : α → α → Prop} {step : Eval α}

theorem agree_apart (hR : ∀ a, R a a) (h : ∀ m, old.Apart m → old.Apart (after step m)) :
    (Pairing.apart old).Agree R step step :=
  Pairing.agree_self (fun _ _ => Iff.rfl) hR h

theorem agree_apart_of_keeps (hR : ∀ a, R a a) (h : Keeps Machine.variables step) :
    (Pairing.apart old).Agree R step step :=
  agree_apart hR fun m hm => hm.of_variables (h m)

theorem same_apart (v : Value) : (Pairing.apart old).Same v v := ⟨rfl, trivial⟩

theorem variables_native (body : Native α) : Keeps Machine.variables (native body) :=
  keeps_of_native (fun _ _ => rfl) body

/-- Everything but calls leaves alone what it has to. -/
theorem simulates_apart_of_calls {inv : Invoke}
    (hcall : ∀ c T vs, T <:+ old.scope →
      (Pairing.apart old).Agree (Pairing.apart old).Same (inv c T vs) (inv c T vs)) :
    Simulates (Pairing.apart old) r r inv inv where
  literal _ := trivial
  boolean _ := trivial
  integer _ := trivial
  cell x := by
    rintro m _ ⟨rfl, hm⟩
    show Related _ _ _ (Eval.cell x m) (Eval.cell x m)
    rw [Eval.cell, get_bind]
    cases hc : m.cell? x with
    | none => exact .error rfl ⟨rfl, hm⟩
    | some c => exact .ok ⟨rfl, hm.cell? hc⟩ ⟨rfl, hm⟩
  load := by
    rintro c _ ⟨rfl, -⟩
    exact agree_apart_of_keeps same_apart (Keeps.bind Keeps.get fun _ => Keeps.pure _)
  store := by
    rintro c _ v ⟨rfl, hc⟩ -
    exact agree_apart (fun _ => trivial) fun m hm => hm.store hc v
  define x v _ := agree_apart (fun _ => trivial) fun m hm => hm.define x v
  operator o a b _ _ :=
    agree_apart_of_keeps same_apart (Keeps.bind Keeps.get fun _ => Keeps.lift _)
  field _ x := by
    refine agree_apart_of_keeps same_apart (Keeps.bind (Keeps.ofExcept _) fun _ => ?_)
    exact Keeps.bind Keeps.get fun _ => Keeps.ofExcept _
  setField _ _ x := agree_apart_of_keeps (fun _ => trivial) (variables_native _)
  method _ _ x :=
    agree_apart_of_keeps same_apart (Keeps.bind (Keeps.ofExcept _) fun _ => variables_native _)
  call {vs} _ x _ := by
    rintro m _ ⟨rfl, hm⟩
    show Related _ _ _ (Eval.call inv x vs m) (Eval.call inv x vs m)
    rw [Eval.call, get_bind]
    cases hfound : m.scope.findFunction? x vs.length with
    | none => exact .error rfl ⟨rfl, hm⟩
    | some found =>
      obtain ⟨news, base, he, -⟩ := hm.entered
      exact hcall found.1 found.2 vs (he.closure hfound) ⟨rfl, hm⟩
  inChild hxy := by
    rintro m _ ⟨rfl, hm⟩
    refine related_inScope (hxy ⟨rfl, hm.child⟩) ?_
    rintro m₁ _ ⟨rfl, hm₁⟩
    exact ⟨rfl, hm.back hm₁.toSpares⟩

theorem agree_apart_of_spares {F : Nat}
    (h : ∀ c T vs m, T <:+ old.scope → old.Spares m → old.Spares (after (invoke r F c T vs) m))
    (c : Callable) (T : RunScope) (vs : List Value) (hT : T <:+ old.scope) :
    (Pairing.apart old).Agree (Pairing.apart old).Same (invoke r F c T vs) (invoke r F c T vs) := by
  refine agree_apart same_apart fun m hm => ?_
  have hback := hm.back (h c T vs m hT hm.toSpares)
  have hscope : (after (invoke r F c T vs) m).scope = m.scope :=
    (Machine.control_eq_iff.1 (restores_invoke F c T vs m)).1
  rwa [← hscope] at hback

/-- A call leaves alone what its closure does not bind, whoever calls. -/
theorem spares_after_invoke (F : Nat) (c : Callable) (T : RunScope) (vs : List Value) (m : Machine)
    (hT : T <:+ old.scope) (hm : old.Spares m) : old.Spares (after (invoke r F c T vs) m) := by
  induction F generalizing c T vs m with
  | zero =>
    rcases cells_after_invoke (r := r) 0 c T vs m with hcells | ⟨d, F, -, hF, -⟩
    · exact hm.of_cells hcells
    · cases hF
  | succ F ih =>
    rcases cells_after_invoke (r := r) (F + 1) c T vs m with hcells | ⟨d, F', rfl, hF, hcells⟩
    · exact hm.of_cells hcells
    · obtain rfl : F = F' := Nat.succ.inj hF
      have hsim : Simulates (Pairing.apart old) r r (invoke r F) (invoke r F) :=
        simulates_apart_of_calls (agree_apart_of_spares ih)
      have hbody : (Pairing.apart old).Agree (Pairing.apart old).SameCompletion
          (do defineParameters d.parameters vs; stmts r (invoke r F) F d.body)
          (do defineParameters d.parameters vs; stmts r (invoke r F) F d.body) :=
        hsim.methodBody d.parameters d.body (.of_all fun _ _ => trivial) (fun _ _ => trivial)
          (.inl rfl)
      have hstart : old.Apart { m with scope := T.child, depth := m.depth + 1 } :=
        ⟨⟨hm.size, hm.cells⟩, [{}], T,
          ⟨rfl, by simpa using Frame.Since.empty _, hT, hm.size⟩, List.cons_ne_nil _ _⟩
      exact (Pairing.Agree.after hbody (fun _ _ => Iff.rfl) hstart).toSpares.of_cells hcells

/-- **A call leaves alone every variable that its closure does not bind.** -/
theorem cells_of_invoke (F : Nat) (c : Callable) (S : RunScope) (vs : List Value) (m : Machine)
    {k : Nat} {v : Value} (hk : m.cells[k]? = some v) (hfree : ¬Scope.Binds S k) :
    (after (invoke r F c S vs) m).cells[k]? = some v := by
  have hm : Machine.Spares { m with scope := S } m := ⟨Nat.le_refl _, fun _ _ _ => rfl⟩
  have hspares := spares_after_invoke (r := r) F c S vs m (List.suffix_refl S) hm
  obtain ⟨hlt, -⟩ := Array.getElem?_eq_some_iff.1 hk
  rw [hspares.cells k hlt hfree]
  exact hk

end

/-! ## Methods in progress -/

/-- No method of a program. -/
def Scope.Native (S : RunScope) : Prop :=
  ∀ f ∈ S, ∀ x k c, f.functions x k = some c → ∃ g, c = .native g

/-- The machine is in frames made since `old`, which hold variables that exist, inside the
    scope of `old`. -/
structure Machine.Inside (old m : Machine) (news : RunScope) : Prop where
  entered : old.Entered m news old.scope
  exist : ∀ k, Scope.Binds news k → k < m.cells.size

section
variable {S S' T : RunScope} {f : String} {n k : Nat} {c : Callable} {old m m' : Machine}
  {news : RunScope}

namespace Scope

theorem exists_of_findFunction? (h : findFunction? S f n = some (c, S')) :
    ∃ g T, S' = g :: T ∧ S' <:+ S ∧ g.functions f n = some c := by
  induction S with
  | nil => cases h
  | cons g S ih =>
    rw [findFunction?] at h
    split at h
    · rename_i c' hc
      cases h
      exact ⟨g, S, rfl, List.suffix_refl _, hc⟩
    · obtain ⟨g', T, hS', hsuffix, hfound⟩ := ih h
      exact ⟨g', T, hS', hsuffix.trans (List.suffix_cons g S), hfound⟩

theorem Native.of_findFunction? (hS : Native S) (h : findFunction? S f n = some (c, S')) :
    ∃ g, c = .native g := by
  obtain ⟨g, T, rfl, hsuffix, hfound⟩ := exists_of_findFunction? h
  exact hS g (hsuffix.subset List.mem_cons_self) f n c hfound

theorem Native.defineFunction (hS : Native S) (x : String) (n : Nat) (g : NativeFunction) :
    Native (S.defineFunction x n (.native g)) := by
  have hframe : ∀ h : Frame Nat Callable,
      (∀ y k c, h.functions y k = some c → ∃ g, c = .native g) →
      ∀ y k c, (h.defineFunction x n (.native g)).functions y k = some c → ∃ g, c = .native g := by
    intro h hh y k c hc
    rw [Frame.functions_defineFunction] at hc
    split at hc
    · exact ⟨g, (Option.some.inj hc).symm⟩
    · exact hh y k c hc
  cases S with
  | nil => exact List.forall_mem_singleton.2 (hframe {} nofun)
  | cons h S =>
    obtain ⟨hh, hS⟩ := List.forall_mem_cons.1 hS
    exact List.forall_mem_cons.2 ⟨hframe h hh, hS⟩

/-- A method of a program is found in the scope of the program. -/
theorem closure_eq_of_native {g : Frame Nat Callable} {d : Method} (hS : Native S)
    (h : findFunction? (g :: S) f n = some (.declared d, S')) : S' = g :: S := by
  rw [findFunction?] at h
  split at h
  · cases h
    rfl
  · obtain ⟨g', hg'⟩ := hS.of_findFunction? h
    cases hg'

end Scope

namespace Machine.Inside

theorem refl (m : Machine) : m.Inside m [] where
  entered := .refl m
  exist := by
    rintro k ⟨g, hg, -⟩
    cases hg

theorem later (h : old.Inside m news) (hm : m.Later m') : old.Inside m' news where
  entered := h.entered.later hm
  exist k hk := Nat.lt_of_lt_of_le (h.exist k hk) hm.cells

theorem child (h : old.Inside m news) :
    old.Inside { m with scope := m.scope.child } ({} :: news) where
  entered := h.entered.child
  exist k hk := h.exist k (Scope.binds_child.1 hk)

theorem define (h : old.Inside m news) (hne : news ≠ []) (x : String) (v : Value) :
    ∃ news', old.Inside (m.define x v) news' ∧ news' ≠ [] := by
  obtain ⟨f, news, rfl⟩ := List.exists_cons_of_ne_nil hne
  refine ⟨_, ⟨h.entered.define x v, fun k hk => ?_⟩, List.cons_ne_nil _ _⟩
  show k < (m.cells.push v).size
  rw [Array.size_push]
  rcases Scope.binds_of_defineVariable (S := f :: news) hk with rfl | hk
  · exact Nat.lt_succ_self _
  · exact Nat.lt_succ_of_lt (h.exist k hk)

end Machine.Inside

/-- Methods of the program run inside its scope. -/
theorem framing_inside {g : Frame Nat Callable} {host : RunScope} (hold : old.scope = g :: host)
    (hhost : Scope.Native host) :
    Framing (fun m => ∃ news, old.Inside m news) (fun m => ∃ news, old.Inside m news ∧ news ≠ [])
      (fun c S => ∀ d, c = .declared d → S = old.scope) where
  own := fun ⟨news, h, _⟩ => ⟨news, h⟩
  later := fun ⟨news, h⟩ hm => ⟨news, h.later hm⟩
  ownLater := fun ⟨news, h, hne⟩ hm => ⟨news, h.later hm, hne⟩
  child := fun ⟨_, h⟩ => ⟨_, h.child, List.cons_ne_nil _ _⟩
  define := fun ⟨_, h, hne⟩ x v => h.define hne x v
  callee := by
    rintro m f k c S ⟨news, h⟩ hfound d rfl
    rw [h.entered.scope, findFunction?_append h.entered.news, hold] at hfound
    exact (Scope.closure_eq_of_native hhost hfound).trans hold.symm
  call := by
    rintro m d S ⟨news, h⟩ hS depth
    obtain rfl := hS d rfl
    refine ⟨[{}], ⟨h.entered.call (List.suffix_refl _) depth, fun k hk => ?_⟩, List.cons_ne_nil _ _⟩
    obtain ⟨f, hf, x, hx⟩ := hk
    obtain rfl := List.mem_singleton.1 hf
    cases hx

/-- Before its methods are defined, a program calls functions of the host only. -/
theorem framing_native :
    Framing (fun m => Scope.Native m.scope) (fun m => Scope.Native m.scope)
      (fun c _ => ∃ g, c = .native g) where
  own h := h
  later h hm := hm.scope ▸ h
  ownLater h hm := hm.scope ▸ h
  child h := List.forall_mem_cons.2 ⟨nofun, h⟩
  define := by
    intro m h x v
    show Scope.Native (m.scope.defineVariable x m.cells.size)
    cases hS : m.scope with
    | nil => exact List.forall_mem_singleton.2 nofun
    | cons g S =>
      rw [hS] at h
      exact List.forall_mem_cons.2 (List.forall_mem_cons.1 h)
  callee h hfound := h.of_findFunction? hfound
  call _ hC := by
    obtain ⟨g, hg⟩ := hC
    cases hg

/-- No cells disappear. -/
theorem framing_cells (n : Nat) :
    Framing (fun m => n ≤ m.cells.size) (fun m => n ≤ m.cells.size) (fun _ _ => True) where
  own h := h
  later h hm := Nat.le_trans h hm.cells
  ownLater h hm := Nat.le_trans h hm.cells
  child h := h
  define := by
    intro m h x v
    show n ≤ (m.cells.push v).size
    rw [Array.size_push]
    exact Nat.le_succ_of_le h
  callee _ _ := trivial
  call h _ _ := h

end

/-! ## The course of a program -/

/-- The activity defines names of a program, or evaluates the initial value of one. -/
inductive Activity.Defines : Activity → Prop
  | fields {F fs} {m : Machine} : Scope.Native m.scope → Defines ⟨F, .fields fs, m⟩
  | field {F x v m} : Defines ⟨F, .define x v, m⟩
  | methods {F ds m} : Defines ⟨F, .methods ds, m⟩
  | method {F d m} : Defines ⟨F, .method d, m⟩
  | value {c : Activity} : c.Framed (fun m => Scope.Native m.scope) (fun m => Scope.Native m.scope)
      (fun c _ => ∃ g, c = .native g) → Defines c

section
variable {r : Registry} {F : Nat} {c c' c₀ : Activity} {cs : List Activity} {task : Task}
  {m m' : Machine} {I I' J J' : Machine → Prop} {C C' : Callable → RunScope → Prop}

theorem Task.Framed.mono (h : task.Framed I J C m) (hI : I m → I' m) (hJ : J m → J' m)
    (hC : ∀ c S, C c S → C' c S) : task.Framed I' J' C' m := by
  cases task with
  | stmt s =>
    cases s with
    | declare d => exact hJ h
    | _ => exact hI h
  | call callable S vs => exact ⟨hI h.1, hC _ _ h.2⟩
  | define | parameters | stmts => exact hJ h
  | fields | method | methods | source => exact h.elim
  | _ => exact hI h

theorem Task.Framed.machine (h : task.Framed I J C m) (hJ : J m → I m) : I m := by
  cases task with
  | stmt s =>
    cases s with
    | declare d => exact hJ h
    | _ => exact h
  | call callable S vs => exact h.1
  | define | parameters | stmts => exact hJ h
  | fields | method | methods | source => exact h.elim
  | _ => exact h

theorem Starts.cells_le (h : Starts r c c') (hc : c.Framed I J C) :
    c.machine.cells.size ≤ c'.machine.cells.size := by
  have hsame : c.Framed (fun m => c.machine.cells.size ≤ m.cells.size)
      (fun m => c.machine.cells.size ≤ m.cells.size) (fun _ _ => True) :=
    Task.Framed.mono hc (fun _ => Nat.le_refl _) (fun _ => Nat.le_refl _) fun _ _ _ => trivial
  exact Task.Framed.machine ((framing_cells _).starts h hsame) id

namespace InProgress

/-- What the first activity satisfies and every step keeps holds of all in progress. -/
theorem forall_mem {P : Activity → Prop} (h : InProgress r c₀ cs) (h₀ : P c₀)
    (hstep : ∀ c c', Starts r c c' → P c → P c') : ∀ c ∈ cs, P c := by
  induction h with
  | start => exact List.forall_mem_singleton.2 h₀
  | next _ hstarts ih =>
    obtain ⟨hc, -⟩ := List.forall_mem_cons.1 ih
    exact List.forall_mem_cons.2 ⟨hstep _ _ hstarts hc, ih⟩

/-- The first activity is the only one, or it has started one that is in progress. -/
theorem cases_first (h : InProgress r c₀ cs) :
    cs = [c₀] ∨ ∃ c₁ cs', Starts r c₀ c₁ ∧ InProgress r c₁ cs' ∧ cs = cs' ++ [c₀] := by
  induction h with
  | start => exact .inl rfl
  | @next c c' cs _ hstarts ih =>
    rcases ih with heq | ⟨c₁, cs', h₁, hprogress, heq⟩
    · cases heq
      exact .inr ⟨c', [c'], hstarts, .start, rfl⟩
    · cases hprogress with
      | start =>
        cases heq
        exact .inr ⟨_, _, h₁, .next .start hstarts, rfl⟩
      | next hprogress hlast =>
        cases heq
        exact .inr ⟨_, _, h₁, .next (.next hprogress hlast) hstarts, rfl⟩

/-- The last activity to start has the most cells. -/
theorem cells_le (h : InProgress r c₀ cs) (hall : ∀ c ∈ cs, c.Framed I J C)
    (hcs : cs.head? = some c) : ∀ c' ∈ cs, c'.machine.cells.size ≤ c.machine.cells.size := by
  induction h generalizing c with
  | start =>
    cases hcs
    exact List.forall_mem_singleton.2 (Nat.le_refl _)
  | next _ hstarts ih =>
    cases hcs
    obtain ⟨-, hall⟩ := List.forall_mem_cons.1 hall
    obtain ⟨hc, -⟩ := List.forall_mem_cons.1 hall
    have hle := ih hall rfl
    refine List.forall_mem_cons.2 ⟨Nat.le_refl _, fun c' hc' => ?_⟩
    exact Nat.le_trans (hle c' hc') (hstarts.cells_le hc)

end InProgress

theorem Starts.defines (h : Starts r c c') (hc : c.Defines) : c'.Defines := by
  cases hc with
  | fields hnative =>
    cases h with
    | fieldValue _ => exact .value hnative
    | field _ => exact .field
    | otherFields hv =>
      have hm₁ := framing_native.later hnative ((advances_optionalExpr _).of_ok hv)
      exact .fields (framing_native.define hm₁ _ _)
  | field => cases h
  | methods =>
    cases h with
    | method => exact .method
    | otherMethods => exact .methods
  | method => cases h
  | value hframed => exact .value (framing_native.starts h hframed)

/-- No method of the program is called before all are defined. -/
theorem Activity.Defines.isMethodCall (h : c.Defines) : c.task.isMethodCall = false := by
  cases h with
  | value hframed =>
    obtain ⟨F, task, m⟩ := c
    cases task with
    | call callable S vs =>
      obtain ⟨-, g, rfl⟩ := hframed
      rfl
    | _ => rfl
  | _ => rfl

end

/-! ## Programs -/

/-- The scope of a program in a run: its global variables and methods, in a frame inside the
    scope that it is run in. -/
def Source.globals (r : Registry) (F : Nat) (s : Source) (m : Machine) : RunScope :=
  (after (do defineFields r F s.fields; s.methods.forM defineMethod)
    { m with scope := m.scope.child }).scope

/-- The machine has defined names of a program inside the scope `host`. -/
structure Machine.Opens (host : RunScope) (m : Machine) : Prop where
  scope : ∃ g, m.scope = g :: host
  exist : ∀ k, Scope.Binds m.scope k → k < m.cells.size

section
variable {r : Registry} {F : Nat} {host : RunScope} {m m' : Machine}

namespace Machine.Opens

theorem later (h : m.Opens host) (hm : m.Later m') : m'.Opens host where
  scope := hm.scope ▸ h.scope
  exist k hk := Nat.lt_of_lt_of_le (h.exist k (hm.scope ▸ hk)) hm.cells

theorem define (h : m.Opens host) (x : String) (v : Value) : (m.define x v).Opens host where
  scope := by
    obtain ⟨g, hg⟩ := h.scope
    refine ⟨g.defineVariable x m.cells.size, ?_⟩
    show m.scope.defineVariable x m.cells.size = _
    rw [hg]
    rfl
  exist k hk := by
    show k < (m.cells.push v).size
    rw [Array.size_push]
    rcases Scope.binds_of_defineVariable hk with rfl | hk
    · exact Nat.lt_succ_self _
    · exact Nat.lt_succ_of_lt (h.exist k hk)

theorem fields (h : m.Opens host) {fs : List Field}
    (hf : defineFields r F fs m = .ok () m') : m'.Opens host := by
  induction fs generalizing m with
  | nil =>
    cases hf
    exact h
  | cons f fs ih =>
    obtain ⟨v, m₁, hv, hf⟩ := bind_eq_ok.1 hf
    exact ih ((h.later ((advances_optionalExpr f.value).of_ok hv)).define f.name v) hf

theorem methods (h : m.Opens host) {ds : List Method}
    (hd : ds.forM defineMethod m = .ok () m') : m'.Opens host := by
  induction ds generalizing m with
  | nil =>
    cases hd
    exact h
  | cons d ds ih =>
    obtain ⟨g, hg⟩ := h.scope
    refine ih ⟨⟨g.defineFunction d.name d.arity (.declared d), ?_⟩, fun k hk => ?_⟩ hd
    · show m.scope.defineFunction d.name d.arity (.declared d) = _
      rw [hg]
      rfl
    · exact h.exist k hk.of_defineFunction

end Machine.Opens

/-- The outermost scope of a run has no variables, and functions of the host only. -/
theorem scope_ofRegistry_native (r : Registry) (w : World) :
    (∀ k, ¬Scope.Binds (Machine.ofRegistry r w).scope k) ∧
      Scope.Native (Machine.ofRegistry r w).scope := by
  suffices hfold : ∀ (fs : List ((String × Nat) × NativeFunction)) (S : RunScope),
      (∀ k, ¬Scope.Binds S k) ∧ Scope.Native S →
      let T := fs.foldl
        (fun s f => s.defineFunction f.2.signature.name f.2.signature.arity (.native f.2)) S
      (∀ k, ¬Scope.Binds T k) ∧ Scope.Native T by
    refine hfold r.functions Scope.root ⟨?_, List.forall_mem_singleton.2 nofun⟩
    rintro k ⟨f, hf, x, hx⟩
    obtain rfl := List.mem_singleton.1 hf
    cases hx
  intro fs
  induction fs with
  | nil => exact fun S hS => hS
  | cons f fs ih =>
    rintro S ⟨hfree, hnative⟩
    exact ih _ ⟨fun k hk => hfree k hk.of_defineFunction, hnative.defineFunction _ _ f.2⟩

/-- What a program does before it calls its `main`. -/
theorem main_of_inProgress {s : Source} {c : Activity} {cs : List Activity}
    (hfree : ∀ k, ¬Scope.Binds m.scope k) (hnative : Scope.Native m.scope)
    (hc : c.task.isMethodCall = true) (h : InProgress r ⟨F, .source s, m⟩ (c :: cs)) :
    ∃ old g cs', old.scope = s.globals r F m ∧ old.scope = g :: m.scope ∧
      (∀ k, Scope.Binds old.scope k → k < old.cells.size) ∧
      c :: cs = cs' ++ [⟨F, .source s, m⟩] ∧
      ∃ callable S, InProgress r ⟨F, .call callable S [], old⟩ cs' ∧
        old.scope.findFunction? "main" 0 = some (callable, S) := by
  have hstart : Machine.Opens m.scope { m with scope := m.scope.child } := by
    refine ⟨⟨_, rfl⟩, fun k hk => ?_⟩
    exact absurd (Scope.binds_child.1 hk) (hfree k)
  rcases h.cases_first with heq | ⟨c₁, cs', hstarts, hprogress, heq⟩
  · cases heq
    cases hc
  · have hmem : c ∈ cs' := by
      cases cs' with
      | nil => cases hprogress
      | cons c' cs' =>
        cases heq
        exact List.mem_cons_self
    have hdefines : ¬c₁.Defines := by
      intro h₁
      have hall := hprogress.forall_mem h₁ fun _ _ => Starts.defines
      rw [(hall c hmem).isMethodCall] at hc
      cases hc
    cases hstarts with
    | sourceFields => exact absurd (.fields (List.forall_mem_cons.2 ⟨nofun, hnative⟩)) hdefines
    | sourceMethods _ => exact absurd .methods hdefines
    | @main _ _ m₁ m₂ _ callable S hf hm hmain =>
      obtain ⟨⟨g, hg⟩, hexist⟩ := (hstart.fields hf).methods hm
      refine ⟨m₂, g, cs', ?_, hg, hexist, heq, callable, S, hprogress, hmain⟩
      rw [Source.globals, after_bind_of_ok hf, after_of_ok hm]

end

/-- **A call leaves the variables of its callers alone.**  Whenever a method of a program is
    called, its closure is the scope of the program, and what that scope does not bind is
    after the call as it was before, however the call ends.  That goes for all variables of
    the methods in progress: they stand in frames inside the scope of the program, and exist
    when the call is made. -/
theorem callers_keep_variables {r : Registry} {w : World} {F F' : Nat} {s : Source}
    {m₀ m : Machine} {d : Method} {S : RunScope} {vs : List Value} {cs : List Activity}
    (hm₀ : m₀.scope = (Machine.ofRegistry r w).scope)
    (h : InProgress r ⟨F, .source s, m₀⟩ (⟨F', .call (.declared d) S vs, m⟩ :: cs)) :
    let m' := after (invoke r F' (.declared d) S vs) m
    S = s.globals r F m₀ ∧ (∃ g, S = g :: m₀.scope) ∧
    (∀ k v, m.cells[k]? = some v → ¬Scope.Binds S k → m'.cells[k]? = some v) ∧
    ∀ c ∈ ⟨F', .call (.declared d) S vs, m⟩ :: cs, c.task ≠ .source s →
      ∃ news, c.machine.scope = news ++ S ∧ ∀ k, Scope.Binds news k →
        ¬Scope.Binds S k ∧ ∃ v, m.cells[k]? = some v ∧ m'.cells[k]? = some v := by
  intro m'
  obtain ⟨hfree, hnative⟩ := scope_ofRegistry_native r w
  rw [← hm₀] at hfree hnative
  obtain ⟨old, g, cs', hglobals, hscope, hexist, hcs, callable, T, hprogress, hmain⟩ :=
    main_of_inProgress hfree hnative rfl h
  have hframing := framing_inside hscope hnative
  have hfirst : Activity.Framed (fun m => ∃ news, old.Inside m news)
      (fun m => ∃ news, old.Inside m news ∧ news ≠ [])
      (fun c S => ∀ d, c = .declared d → S = old.scope) ⟨F, .call callable T [], old⟩ :=
    ⟨⟨[], .refl old⟩, hframing.callee ⟨[], .refl old⟩ hmain⟩
  have hall := hprogress.forall_mem hfirst fun _ _ => hframing.starts
  have hhead : cs'.head? = some ⟨F', .call (.declared d) S vs, m⟩ := by
    cases cs' with
    | nil => cases hprogress
    | cons c cs' =>
      cases hcs
      rfl
  have hS : S = old.scope := (hall _ (List.mem_of_head? hhead)).2 d rfl
  have hkeeps : ∀ k v, m.cells[k]? = some v → ¬Scope.Binds S k → m'.cells[k]? = some v :=
    fun k v hk hfree => cells_of_invoke F' _ S vs m hk hfree
  refine ⟨hS.trans hglobals, ⟨g, hS.trans hscope⟩, hkeeps, fun c hc hne => ?_⟩
  have hmem : c ∈ cs' := by
    rw [hcs] at hc
    rcases List.mem_append.1 hc with hc | hc
    · exact hc
    · rw [List.mem_singleton.1 hc] at hne
      exact absurd rfl hne
  obtain ⟨news, hinside⟩ := Task.Framed.machine (hall c hmem) hframing.own
  refine ⟨news, hS ▸ hinside.entered.scope, fun k hk => ?_⟩
  -- A variable of a method in progress is younger than the scope of the program.
  have hyoung : ¬Scope.Binds S k := by
    intro hbinds
    obtain ⟨f, hf, x, hx⟩ := hk
    have hle : old.cells.size ≤ k := (hinside.entered.news f hf).vars x k hx
    have hlt : k < old.cells.size := hexist k (hS ▸ hbinds)
    omega
  have hlt : k < m.cells.size :=
    Nat.lt_of_lt_of_le (hinside.exist k hk) (hprogress.cells_le hall hhead c hmem)
  have hvalue : m.cells[k]? = some m.cells[k] := Array.getElem?_eq_getElem hlt
  exact ⟨hyoung, _, hvalue, hkeeps k _ hvalue hyoung⟩

/-- A method with a variable of its own named `x`. -/
def innerMethod : Method where
  node := default
  name := "g"
  parameters := []
  resultName := none
  body := [.declare ⟨default, "x", none, some (.literal default (.integer 2))⟩]

/-- A method that has a variable `x` and calls the other one. -/
def outerMethod : Method where
  node := default
  name := "main"
  parameters := []
  resultName := none
  body := [.declare ⟨default, "x", none, some (.literal default (.integer 1))⟩,
    .expression (.call default "g" [])]

/-- The program of the two. -/
def nestedProgram : Source where
  fields := []
  methods := [innerMethod, outerMethod]

/-- The caller's `x` is still one after the call. -/
theorem callers_keep_variables_nested : ∃ S m cs,
    InProgress {} ⟨2, .source nestedProgram, .ofRegistry {} {}⟩
      (⟨1, .call (.declared innerMethod) S [], m⟩ :: cs) ∧
    m.cell? "x" = some 0 ∧ m.cells[0]? = some (.integer 1) ∧
    (after (invoke {} 1 (.declared innerMethod) S []) m).cells[0]? = some (.integer 1) := by
  have hstart : InProgress {} ⟨2, .source nestedProgram, .ofRegistry {} {}⟩ [_] := .start
  have hmain := hstart.next (.main rfl rfl rfl)
  have hbody := hmain.next (.body rfl (by decide) rfl)
  have hrest := hbody.next (.otherStatements rfl)
  have hcall := ((hrest.next .statement).next .expression).next (.callee rfl rfl)
  obtain ⟨-, -, hkeeps, -⟩ := callers_keep_variables (w := {}) rfl hcall
  refine ⟨_, _, _, hcall, rfl, rfl, hkeeps 0 _ rfl ?_⟩
  rintro ⟨f, hf, x, hx⟩
  rcases List.mem_cons.1 hf with rfl | hf
  · cases hx
  · obtain rfl := List.mem_singleton.1 hf
    cases hx

end TinyScript
