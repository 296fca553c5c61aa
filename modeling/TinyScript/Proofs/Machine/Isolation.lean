import TinyScript.Proofs.Machine.Control
import TinyScript.Proofs.Machine.Likeness
import TinyScript.Proofs.Machine.Store

/-
  Programs that run one after another do not notice each other.

  A program that has run leaves cells that nothing refers to, and what it has printed.  The
  scope and the call depth are as before it, however it ended.  With the standard functions
  there are no objects, so the next program sees neither: it works in cells behind the
  leftovers and prints behind the earlier output.

  * `Value.Plain`: a value that does not refer to an object;
  * `leftovers`: a machine that has been used is like a fresh one;
  * `runs_isolated`: every run answers and prints as on a fresh machine.
-/

namespace TinyScript

/-! ## Values without objects -/

/-- The value does not refer to an object. -/
def Value.Plain (v : Value) : Prop := ∀ ref, v ≠ .object ref

section
variable {v u : Value} {w w' : World}

theorem World.text?_of_plain (hv : v.Plain) : w'.text? v = w.text? v := by
  cases v with
  | object ref => exact absurd rfl (hv ref)
  | boolean b => cases b <;> rw [text?, text?]
  | _ => rw [text?, text?]

theorem World.equal?_of_plain (hv : v.Plain) : w'.equal? v u = w.equal? v u := by
  cases v with
  | object ref => exact absurd rfl (hv ref)
  | _ => cases u <;> simp [equal?]

/-- Operators on plain values do not look at the world. -/
theorem World.binary_of_plain (hv : v.Plain) (hu : u.Plain) (o : BinaryOperator) :
    w'.binary o v u = w.binary o v u := by
  unfold World.binary
  split
  · have hequal : w'.equal? v u = w.equal? v u := World.equal?_of_plain hv
    unfold World.comparison
    rw [hequal]
  · unfold World.arithmetic
    split
    · rw [World.text?_of_plain hu]
    · rw [World.text?_of_plain hv]
    · rfl
    · rfl
    · rfl

/-- No operator gives an object. -/
theorem plain_of_binary {o : BinaryOperator} {x y : Value} (h : w.binary o x y = .ok v) :
    v.Plain := by
  rintro ref rfl
  rw [World.binary] at h
  split at h
  · cases comparison_inhabits h
  · rcases arithmetic_inhabits h with ⟨-, -, hv⟩ | ⟨-, -, hv⟩ | ⟨-, -, hv⟩ <;> cases hv

end

/-! ## Machines that have been used -/

/-- A machine that has been used, as the second one, is like a fresh one: it has more cells
    in front and other output before, and there are no objects. -/
def leftovers (cells : Nat) (fresh used : String) : Likeness where
  shift := cells
  values := Value.Plain
  worlds w w' := ∃ text, w.output = fresh ++ text ∧ w'.output = used ++ text
  functions f f' := f = f' ∧ f ∈ Registry.standardFunctions
  methods d d' := d = d'

section
variable {cells : Nat} {fresh used : String}

theorem hosts_print {vs : List Value} (hvs : ∀ v ∈ vs, v.Plain) :
    (leftovers cells fresh used).Hosts (leftovers cells fresh used).pairing.Same
      (Native.print vs) (Native.print vs) := by
  unfold Native.print
  split
  · rename_i v
    have hv : v.Plain := hvs v (List.mem_singleton_self v)
    refine Relates.get_bind fun w w' hw => ?_
    have htext : w'.text? v = w.text? v := World.text?_of_plain hv
    rw [htext]
    cases w.text? v with
    | none => exact .error rfl hw
    | some line =>
      obtain ⟨text, hfresh, hused⟩ := hw
      refine .ok ⟨rfl, nofun⟩ ⟨text ++ line ++ "\n", ?_, ?_⟩
      · show w.output ++ line ++ "\n" = _
        rw [hfresh]
        simp only [String.append_assoc]
      · show w'.output ++ line ++ "\n" = _
        rw [hused]
        simp only [String.append_assoc]
  · exact Relates.throw rfl

theorem hosts_logarithm (vs : List Value) :
    (leftovers cells fresh used).Hosts (leftovers cells fresh used).pairing.Same
      (Native.logarithm vs) (Native.logarithm vs) := by
  unfold Native.logarithm
  split
  · split
    · exact Relates.pure ⟨rfl, nofun⟩
    · exact Relates.throw rfl
  · exact Relates.throw rfl
  · exact Relates.throw rfl

theorem hosts_ofExcept {α : Type} (x : Except RuntimeError α) :
    (leftovers cells fresh used).Hosts Eq (Native.ofExcept x) (Native.ofExcept x) := by
  cases x with
  | ok a => exact Relates.pure rfl
  | error e => exact Relates.throw rfl

theorem hosts_range (vs : List Value) :
    (leftovers cells fresh used).Hosts (leftovers cells fresh used).pairing.Same
      (Native.range vs) (Native.range vs) := by
  unfold Native.range
  split
  · refine Relates.bind (hosts_ofExcept _) ?_
    rintro start _ rfl
    refine Relates.bind (hosts_ofExcept _) ?_
    rintro stop _ rfl
    exact Relates.pure ⟨rfl, nofun⟩
  · exact Relates.throw rfl

/-- No standard function and no operator sees what earlier programs have left. -/
theorem faithful_leftovers : (leftovers cells fresh used).Faithful Registry.standard where
  literal v := by cases v <;> nofun
  integer _ := nofun
  boolean _ := nofun
  operator _ ha hb o := ⟨World.binary_of_plain ha hb o, fun _ hv => plain_of_binary hv⟩
  field _ href _ := absurd rfl (href _)
  setField href _ _ := absurd rfl (href _)
  method href _ _ := absurd rfl (href _)
  function := by
    rintro f _ ⟨rfl, hf⟩
    refine ⟨rfl, fun hvs => ?_⟩
    simp only [Registry.standardFunctions, List.mem_cons, List.not_mem_nil, or_false] at hf
    rcases hf with rfl | rfl | rfl
    · exact hosts_print hvs
    · exact hosts_logarithm _
    · exact hosts_range _
  declared := by
    rintro d _ rfl
    exact ⟨rfl, rfl, fun _ _ => rfl⟩

/-- A machine whose scope holds the standard functions and nothing else is like a fresh
    one. -/
theorem machines_leftovers (w w' : World) {m : Machine}
    (hm : m.control = (Machine.ofRegistry Registry.standard w).control) :
    (leftovers m.cells.size w'.output m.world.output).Machines
      (.ofRegistry Registry.standard w') m := by
  obtain ⟨hscope, hdepth⟩ := Machine.control_eq_iff.1 hm
  refine ⟨?_, hdepth.symm, ⟨?_, fun c => ?_, nofun⟩, ⟨"", ?_, ?_⟩⟩
  · have hstandard : ∀ e ∈ Registry.standard.functions, e.2 ∈ Registry.standardFunctions :=
      fun e he => List.mem_map_of_mem (f := Prod.snd) he
    rw [hscope]
    exact Likeness.scopes_ofRegistry (l := leftovers _ _ _)
      (fun e he => ⟨rfl, hstandard e he⟩) w' w
  · exact (Nat.zero_add _).symm
  · exact Array.getElem?_eq_none (Nat.le_add_left _ c)
  · exact (String.append_empty ..).symm
  · exact (String.append_empty ..).symm

end

/-! ## Programs one after another -/

namespace Eval

/-- The result of a computation, or why there is none. -/
def outcome {α : Type} (step : Eval α) (m : Machine) : Except Stop α :=
  match step m with
  | .ok a _ => .ok a
  | .error e _ => .error e

/-- The machine after programs have run on it one after another, each with some fuel and
    however it ended. -/
def afterAll (r : Registry) (m : Machine) (runs : List (Nat × Source)) : Machine :=
  runs.foldl (fun m run => after (source r run.1 run.2) m) m

/-- Programs leave scope and call depth as they were. -/
theorem control_afterAll (r : Registry) (m : Machine) (runs : List (Nat × Source)) :
    (afterAll r m runs).control = m.control := by
  induction runs generalizing m with
  | nil => rfl
  | cons run runs ih =>
    have hrun : (after (source r run.1 run.2) m).control = m.control :=
      control_source run.1 run.2 m
    exact (ih _).trans hrun

end Eval

open Eval

/-- **Runs are isolated.**  Whatever programs have run on a machine with the standard
    functions, and however they ended, the next one has the same result or error as on a
    fresh machine, and prints the same. -/
theorem runs_isolated (w w' : World) (earlier : List (Nat × Source)) (fuel : Nat) (s : Source) :
    let run := source Registry.standard fuel s
    let used := afterAll Registry.standard (.ofRegistry Registry.standard w) earlier
    let fresh := Machine.ofRegistry Registry.standard w'
    outcome run used = outcome run fresh ∧
      ∃ text, (after run used).world.output = used.world.output ++ text ∧
        (after run fresh).world.output = fresh.world.output ++ text := by
  intro run used fresh
  have hmachines := machines_leftovers w w' (m := used) (control_afterAll _ _ earlier)
  have hmethods : List.Forall₂ Eq s.methods s.methods := List.forall₂_refl _
  have hrun : Related Eq _ _ (run fresh) (run used) :=
    (faithful_leftovers.simulates fuel).source rfl
      (Likeness.agree_defineMethods faithful_leftovers hmethods) hmachines
  rw [outcome, outcome, after, after]
  generalize run fresh = o at hrun
  generalize run used = o' at hrun
  cases hrun with
  | ok hv hm =>
    obtain ⟨text, hfresh, hused⟩ := hm.world
    exact ⟨by rw [hv.1], text, hused, hfresh⟩
  | error he hm =>
    obtain ⟨text, hfresh, hused⟩ := hm.world
    exact ⟨by rw [he], text, hused, hfresh⟩

end TinyScript
