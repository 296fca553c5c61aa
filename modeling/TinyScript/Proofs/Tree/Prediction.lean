import TinyScript.Proofs.Tree.Progress
import TinyScript.Proofs.Tree.Unlimited

/-
  Parsers that decide by the next token.

  `Parse.Predicts p A` is what such a parser for a language has to say about every state.
  What it accepts is a word of the language.  Where it reports a token, the tokens before
  that one can be completed to a word, and where the tokens run out, all of them can.  And
  it looks at nothing else: whatever it has read decides the outcome, together with the
  token it reports or the one it leaves.

  The predicate is closed under everything parsers are built from.  Tokens that can be
  completed are put together from tokens that have been accepted and tokens that can be
  completed; this needs only that there are words to complete them with (`Spellable`).

  * `Parse.PredictsAt.same`, `Parse.PredictsAt.next`: from what a parser does first;
  * `Parse.PredictsAt.bind`: one parser after another;
  * `Parse.Repeats.predicts`: a loop.
-/

namespace TinyScript

open Computability Grammar

variable {α β ι : Type}

/-! ## Outcomes -/

/-- The states hand out the same identity next, have as many levels open and the same heights
    recorded, and have just passed the same token. -/
structure ParserState.Alike (s t : ParserState) : Prop where
  nextId : t.nextId = s.nextId
  depth : t.depth = s.depth
  heights : t.heights = s.heights
  previous : t.stream.previous = s.stream.previous

/-- The error is about the token. -/
def ParseError.Reports (u : Token) : ParseError → Prop
  | .unexpectedToken _ found offset | .trailingTokens found offset =>
    found = u.text ∧ offset = u.offset
  | .unexpectedEnd _ _ | .nestingTooDeep _ _ => False

namespace Parse

/-- What a parser for a language does from a state, told from the tokens that it reads. -/
inductive PredictsAt (A : Language Token) (s : ParserState) (p : Parse α) : Prop
  /-- A word has been read, and the token after it decides that it ends there. -/
  | accepts {us : List Token} {a : α} {s' : ParserState} : p s = .ok a s' →
      s.rest = us ++ s'.rest → us ∈ A → s'.stream.endOffset = s.stream.endOffset →
      (∀ t ys, s.Alike t → t.rest = us ++ ys → ys.head? = s'.rest.head? →
        ∃ t', p t = .ok a t' ∧ s'.Alike t' ∧ t'.rest = ys) → PredictsAt A s p
  /-- A token is reported after the front of a word. -/
  | rejects {us zs : List Token} {u : Token} {e : ParseError} {s' : ParserState} :
      p s = .error e s' → s.rest = us ++ u :: zs → e.Reports u → Front A us →
      (∀ t ys, s.Alike t → t.rest = us ++ u :: ys → ∃ t', p t = .error e t') → PredictsAt A s p
  /-- The tokens have run out, and all of them are the front of a word. -/
  | starves {expected : String} {s' : ParserState} :
      p s = .error (.unexpectedEnd expected s.stream.endOffset) s' → Front A s.rest →
      PredictsAt A s p
  /-- Nothing may nest any deeper. -/
  | sinks {limit offset : Nat} {s' : ParserState} :
      p s = .error (.nestingTooDeep limit offset) s' → PredictsAt A s p

/-- What a parser for a language does from every state. -/
def Predicts (p : Parse α) (A : Language Token) : Prop :=
  ∀ s : ParserState, s.Lexed → PredictsAt A s p

end Parse

namespace ParserState

variable {s t : ParserState}

theorem Alike.refl (s : ParserState) : s.Alike s := ⟨rfl, rfl, rfl, rfl⟩

theorem Alike.next (h : s.Alike t) (hhead : t.rest.head? = s.rest.head?) : s.next.Alike t.next :=
  ⟨h.nextId, h.depth, h.heights, hhead⟩

theorem Alike.bump (h : s.Alike t) : s.bump.Alike t.bump :=
  ⟨congrArg (· + 1) h.nextId, h.depth, h.heights, h.previous⟩

theorem Alike.record (h : s.Alike t) (height : Nat) :
    (s.record height).Alike (t.record height) := by
  refine ⟨congrArg (· + 1) h.nextId, h.depth, ?_, h.previous⟩
  rw [ParserState.record, ParserState.record, h.nextId, h.heights]

theorem Alike.deeper (h : s.Alike t) : s.deeper.Alike t.deeper :=
  ⟨h.nextId, congrArg (· + 1) h.depth, h.heights, h.previous⟩

theorem Alike.shallower (h : s.Alike t) : s.shallower.Alike t.shallower :=
  ⟨h.nextId, congrArg (· - 1) h.depth, h.heights, h.previous⟩

theorem Alike.nodeHeight (h : s.Alike t) (e : Expr) : t.nodeHeight e = s.nodeHeight e := by
  have hheight : t.height = s.height := by
    funext e
    rw [height, height, h.heights]
  rw [ParserState.nodeHeight, ParserState.nodeHeight, maxHeight, maxHeight, hheight]

/-- The next token decides what a pattern says. -/
theorem peek_congr (h : t.rest.head? = s.rest.head?) (p : Token.Pattern) :
    t.stream.peek p = s.stream.peek p :=
  congrArg (Option.any p.accepts) h

end ParserState

namespace Parse

open ParserState

variable {A B : Language Token} {s : ParserState} {p q : Parse α} {f : α → Parse β}

theorem head?_append_congr {xs ys : List Token} (us : List Token) (h : xs.head? = ys.head?) :
    (us ++ xs).head? = (us ++ ys).head? := by
  rw [List.head?_append, List.head?_append, h]

theorem head?_append_cons (us : List Token) (u : Token) (xs ys : List Token) :
    (us ++ u :: xs).head? = (us ++ u :: ys).head? :=
  head?_append_congr us rfl

/-! ## Steps -/

theorem PredictsAt.mono (h : PredictsAt A s p) (hle : A ≤ B) : PredictsAt B s p := by
  cases h with
  | accepts hp hrest hmem hend hlocal => exact .accepts hp hrest (hle hmem) hend hlocal
  | rejects hp hrest hreports hfront hlocal =>
    exact .rejects hp hrest hreports (hfront.mono hle) hlocal
  | starves hp hfront => exact .starves hp (hfront.mono hle)
  | sinks hp => exact .sinks hp

/-- A parser does what another one does, if the next token decides that. -/
theorem PredictsAt.same (hq : PredictsAt A s q)
    (h : ∀ t, s.Alike t → t.rest.head? = s.rest.head? → p t = q t) : PredictsAt A s p := by
  have hs : p s = q s := h s (.refl s) rfl
  cases hq with
  | accepts hq hrest hmem hend hlocal =>
    refine .accepts (hs.trans hq) hrest hmem hend fun t ys ht htrest hys => ?_
    rw [h t ht (by rw [htrest, hrest, head?_append_congr _ hys])]
    exact hlocal t ys ht htrest hys
  | rejects hq hrest hreports hfront hlocal =>
    refine .rejects (hs.trans hq) hrest hreports hfront fun t ys ht htrest => ?_
    rw [h t ht (by rw [htrest, hrest]; exact head?_append_cons _ _ ys _)]
    exact hlocal t ys ht htrest
  | starves hq hfront => exact .starves (hs.trans hq) hfront
  | sinks hq => exact .sinks (hs.trans hq)

/-- A parser passes a token and does what another one does after it. -/
theorem PredictsAt.next {u : Token} {zs : List Token} (hrest : s.rest = u :: zs)
    (hq : PredictsAt B s.next q)
    (h : ∀ t, s.Alike t → t.rest.head? = some u → p t = q t.next) :
    PredictsAt ({[u]} * B) s p := by
  have hhead : s.rest.head? = some u := by rw [hrest]; rfl
  have hs : p s = q s.next := h s (.refl s) hhead
  have hcons : s.rest = u :: s.next.rest := by rw [rest_next, hrest, List.tail_cons]
  have hmem : [u] ∈ ({[u]} : Language Token) := rfl
  -- What another state does after the token, if it has that token next.
  have hnext : ∀ {t : ParserState} {ys : List Token}, s.Alike t → t.rest = u :: ys →
      p t = q t.next ∧ s.next.Alike t.next ∧ t.next.rest = ys := by
    intro t ys ht htrest
    have hthead : t.rest.head? = some u := by rw [htrest]; rfl
    refine ⟨h t ht hthead, ht.next (hthead.trans hhead.symm), ?_⟩
    rw [rest_next, htrest, List.tail_cons]
  cases hq with
  | @accepts us a s' hq hrest' hus hend hlocal =>
    have hpassed : s.rest = (u :: us) ++ s'.rest := by rw [hcons, hrest', List.cons_append]
    refine .accepts (hs.trans hq) hpassed (Language.append_mem_mul hmem hus) hend ?_
    intro t ys ht htrest hys
    obtain ⟨hpt, ht', htrest'⟩ := hnext ht htrest
    rw [hpt]
    exact hlocal t.next ys ht' htrest' hys
  | @rejects us zs' v e s' hq hrest' hreports hfront hlocal =>
    have hpassed : s.rest = (u :: us) ++ v :: zs' := by rw [hcons, hrest', List.cons_append]
    refine .rejects (hs.trans hq) hpassed hreports (Front.mul_left hmem hfront) ?_
    intro t ys ht htrest
    obtain ⟨hpt, ht', htrest'⟩ := hnext ht htrest
    rw [hpt]
    exact hlocal t.next ys ht' htrest'
  | starves hq hfront =>
    refine .starves (hs.trans hq) ?_
    rw [hcons]
    exact Front.mul_left hmem hfront
  | sinks hq => exact .sinks (hs.trans hq)

theorem PredictsAt.pure (a : α) (s : ParserState) : PredictsAt 1 s (pure a : Parse α) := by
  have hmem : [] ∈ (1 : Language Token) := Language.nil_mem_one
  exact .accepts rfl rfl hmem rfl fun t ys ht htrest _ => ⟨t, rfl, ht, htrest⟩

/-- A parser passes a token that is a word of its own, and takes no other token. -/
theorem PredictsAt.word {u : Token} {zs : List Token} (hrest : s.rest = u :: zs) (hu : [u] ∈ A)
    (hq : PredictsAt 1 s.next q) (h : ∀ t, s.Alike t → t.rest.head? = some u → p t = q t.next) :
    PredictsAt A s p := by
  have hnext := hq.next hrest h
  rw [mul_one] at hnext
  refine hnext.mono ?_
  rintro _ rfl
  exact hu

/-- One parser after another. -/
theorem PredictsAt.bind [Spellable B] (hp : PredictsAt A s p)
    (hf : ∀ us a s', us ∈ A → s.rest = us ++ s'.rest → PredictsAt B s' (f a)) :
    PredictsAt (A * B) s (p >>= f) := by
  cases hp with
  | rejects hp hrest hreports hfront hlocal =>
    refine .rejects (bind_of_error hp) hrest hreports hfront.mul_right fun t ys ht htrest => ?_
    obtain ⟨t', ht'⟩ := hlocal t ys ht htrest
    exact ⟨t', bind_of_error ht'⟩
  | starves hp hfront => exact .starves (bind_of_error hp) hfront.mul_right
  | sinks hp => exact .sinks (bind_of_error hp)
  | @accepts us a s₁ hp hrest hus hend hlocal =>
    cases hf us a s₁ hus hrest with
    | @accepts vs b s₂ hq hrest₁ hvs hend₁ hlocal₁ =>
      have hpassed : s.rest = (us ++ vs) ++ s₂.rest := by rw [hrest, hrest₁, List.append_assoc]
      refine .accepts ((bind_of_ok hp).trans hq) hpassed (Language.append_mem_mul hus hvs)
        (hend₁.trans hend) ?_
      intro t ys ht htrest hys
      rw [List.append_assoc] at htrest
      obtain ⟨t₁, hpt, ht₁, htrest₁⟩ := hlocal t _ ht htrest
        (by rw [hrest₁, head?_append_congr vs hys])
      rw [bind_of_ok hpt]
      exact hlocal₁ t₁ ys ht₁ htrest₁ hys
    | @rejects vs zs u e s₂ hq hrest₁ hreports hfront hlocal₁ =>
      have hpassed : s.rest = (us ++ vs) ++ u :: zs := by rw [hrest, hrest₁, List.append_assoc]
      refine .rejects ((bind_of_ok hp).trans hq) hpassed hreports (Front.mul_left hus hfront) ?_
      intro t ys ht htrest
      rw [List.append_assoc] at htrest
      obtain ⟨t₁, hpt, ht₁, htrest₁⟩ := hlocal t _ ht htrest
        (by rw [hrest₁]; exact head?_append_cons vs u ys zs)
      rw [bind_of_ok hpt]
      exact hlocal₁ t₁ ys ht₁ htrest₁
    | starves hq hfront =>
      rw [hend] at hq
      refine .starves ((bind_of_ok hp).trans hq) ?_
      rw [hrest]
      exact Front.mul_left hus hfront
    | sinks hq => exact .sinks ((bind_of_ok hp).trans hq)

/-- A parser that only reports the next token. -/
theorem PredictsAt.faults [Spellable A] {u : Token} {zs : List Token} {e : ParseError}
    (hrest : s.rest = u :: zs) (hreports : e.Reports u)
    (h : ∀ t, s.Alike t → t.rest.head? = some u → ∃ t', p t = .error e t') : PredictsAt A s p := by
  obtain ⟨s', hs'⟩ := h s (.refl s) (by rw [hrest, List.head?_cons])
  have hrest' : s.rest = [] ++ u :: zs := hrest
  refine .rejects hs' hrest' hreports Spellable.front fun t ys ht htrest => h t ht ?_
  rw [htrest]
  rfl

/-- A parser that only says that something is missing. -/
theorem PredictsAt.lacks [Spellable A] (expected : String)
    (h : ∀ t, s.Alike t → t.rest.head? = s.rest.head? →
      p t = .error (missing t.stream expected) t) :
    PredictsAt A s p := by
  cases hrest : s.rest with
  | nil =>
    have hend : missing s.stream expected = .unexpectedEnd expected s.stream.endOffset := by
      rw [missing, TokenStream.next?, show s.stream.rest = [] from hrest]
      rfl
    refine .starves (hend ▸ h s (.refl s) rfl) ?_
    rw [hrest]
    exact Spellable.front
  | cons u zs =>
    have hreports : (ParseError.unexpectedToken expected u.text u.offset).Reports u := ⟨rfl, rfl⟩
    refine .faults hrest hreports fun t ht hhead => ⟨t, ?_⟩
    rw [h t ht (by rw [hhead, hrest, List.head?_cons]), missing, TokenStream.next?,
      show t.stream.rest.head? = some u from hhead]

/-- Tokens with a good first one. -/
theorem PredictsAt.headed {Q : Token → Prop} (h : PredictsAt A s p)
    (hs : ∀ t ∈ s.rest.head?, Q t) (hempty : Front (Headed Q A) []) :
    PredictsAt (Headed Q A) s p := by
  have hgood : ∀ {us ys : List Token}, s.rest = us ++ ys → ∀ t ∈ us.head?, Q t := by
    intro us ys hrest t ht
    refine hs t ?_
    rw [hrest, List.head?_append, Option.mem_def.1 ht]
    rfl
  cases h with
  | accepts hp hrest hmem hend hlocal => exact .accepts hp hrest ⟨hmem, hgood hrest⟩ hend hlocal
  | rejects hp hrest hreports hfront hlocal =>
    exact .rejects hp hrest hreports (hfront.headed (hgood hrest) hempty) hlocal
  | starves hp hfront => exact .starves hp (hfront.headed hs hempty)
  | sinks hp => exact .sinks hp

/-! ## Primitives -/

theorem Predicts.mono (h : Predicts p A) (hle : A ≤ B) : Predicts p B :=
  fun s hs => (h s hs).mono hle

theorem Predicts.pure (a : α) : Predicts (pure a : Parse α) 1 := fun s _ => .pure a s

theorem Predicts.bind [Spellable B] (hp : Predicts p A) (hf : ∀ a, Predicts (f a) B) :
    Predicts (p >>= f) (A * B) :=
  fun s hs => (hp s hs).bind fun _ a s' _ hrest => hf a s' (hs.after hrest)

/-- What takes no token after a parser leaves its language. -/
theorem PredictsAt.last (hp : PredictsAt A s p) (hf : ∀ a s', PredictsAt 1 s' (f a)) :
    PredictsAt A s (p >>= f) := by
  rw [← mul_one A]
  exact hp.bind fun _ a s' _ _ => hf a s'

theorem Predicts.last (hp : Predicts p A) (hf : ∀ a s, PredictsAt 1 s (f a)) :
    Predicts (p >>= f) A :=
  fun s hs => (hp s hs).last hf

theorem predictsAt_freshId (s : ParserState) : PredictsAt 1 s freshId := by
  have hmem : [] ∈ (1 : Language Token) := Language.nil_mem_one
  have hfresh : ∀ t : ParserState, freshId t = .ok t.nextId t.bump := fun _ => rfl
  refine .accepts (hfresh s) rfl hmem rfl fun t ys ht htrest _ => ?_
  exact ⟨t.bump, by rw [hfresh, ht.nextId], ht.bump, htrest⟩

/-- A new identity for what takes no further token. -/
theorem predictsAt_identity (g : Nat → α) (s : ParserState) :
    PredictsAt 1 s (do return g (← freshId)) :=
  (predictsAt_freshId s).last fun _ s' => .pure _ s'

theorem predictsAt_build (offset : Nat) (make : Node → Expr) (s : ParserState) :
    PredictsAt 1 s (build offset make) := by
  have hbuild := build_apply offset make s
  split at hbuild
  · exact .sinks hbuild
  · rename_i hlow
    have hmem : [] ∈ (1 : Language Token) := Language.nil_mem_one
    refine .accepts hbuild rfl hmem rfl fun t ys ht htrest _ => ?_
    rw [build_apply, ht.nextId, ht.nodeHeight, if_neg hlow]
    exact ⟨_, rfl, ht.record _, htrest⟩

/-- A parser one level of nesting deeper. -/
theorem Predicts.nested (h : Predicts p A) : Predicts (nested p) A := by
  intro s hs
  by_cases hdepth : s.depth = nestingLimit
  · exact .sinks (nested_of_limit hdepth)
  · have hdepth' : ∀ t, s.Alike t → t.depth ≠ nestingLimit := fun t ht => ht.depth ▸ hdepth
    cases h s.deeper hs with
    | accepts hp hrest hmem hend hlocal =>
      refine .accepts (nested_eq_ok.2 ⟨hdepth, _, hp, rfl⟩) hrest hmem hend ?_
      intro t ys ht htrest hys
      obtain ⟨t', hpt, ht', htrest'⟩ := hlocal t.deeper ys ht.deeper htrest hys
      exact ⟨_, nested_eq_ok.2 ⟨hdepth' t ht, t', hpt, rfl⟩, ht'.shallower, htrest'⟩
    | rejects hp hrest hreports hfront hlocal =>
      refine .rejects (nested_of_error hdepth hp) hrest hreports hfront fun t ys ht htrest => ?_
      obtain ⟨t', hpt⟩ := hlocal t.deeper ys ht.deeper htrest
      exact ⟨_, nested_of_error (hdepth' t ht) hpt⟩
    | starves hp hfront => exact .starves (nested_of_error hdepth hp) hfront
    | sinks hp => exact .sinks (nested_of_error hdepth hp)

/-- What needs only the token just passed of the tokens. -/
theorem Predicts.previousOffset {k : TokenStream → Parse α} (h : ∀ s, Predicts (k s) A)
    (hk : ∀ s s' : TokenStream, s.previousOffset = s'.previousOffset → k s = k s') :
    Predicts (stream >>= k) A := by
  intro s hs
  refine (h s.stream s hs).same fun t ht _ => ?_
  rw [stream_bind, hk t.stream s.stream]
  rw [TokenStream.previousOffset, ht.previous]
  rfl

theorem predictsAt_tooDeep : PredictsAt A s (tooDeep : Parse α) := .sinks rfl

/-- What comes next decides. -/
theorem expect_apply (P : Token.Pattern) (expected : String) (t : ParserState) :
    expect P expected t =
      match t.rest.head? with
      | some u => if P.accepts u then .ok u t.next else .error (missing t.stream expected) t
      | none => .error (missing t.stream expected) t := by
  rw [expect, stream_bind, show t.rest.head? = t.stream.next? from rfl]
  cases t.stream.next? with
  | none => rfl
  | some u =>
    simp only
    split <;> rfl

/-- A token that must pass a pattern. -/
theorem predicts_expect {P : Token.Pattern} {expected : String} [Spellable A]
    (h : ∀ t : Token, t.Lexed → P.accepts t = true → [t] ∈ A) :
    Predicts (expect P expected) A := by
  intro s hs
  cases hrest : s.rest with
  | nil =>
    refine .lacks expected fun t _ ht => ?_
    rw [expect_apply, ht, hrest]
    rfl
  | cons u zs =>
    by_cases hu : P.accepts u = true
    · have hmem : [u] ∈ A := h u (hs u (by rw [hrest]; exact List.mem_cons_self)) hu
      refine .word hrest hmem (.pure u s.next) fun t _ ht => ?_
      rw [expect_apply, ht]
      exact if_pos hu
    · refine .lacks expected fun t _ ht => ?_
      rw [expect_apply, ht, hrest]
      exact if_neg hu

theorem predicts_expectText {text expected : String} [Spellable (Terminal text)]
    (hterm : isTerminal text = true) : Predicts (expectText text expected) (Terminal text) := by
  have hexpect : Predicts (expect (.text text) expected) (Terminal text) :=
    predicts_expect fun t ht h => ⟨t, ht.is (by simpa [Token.Pattern.accepts] using h) hterm, rfl⟩
  exact hexpect.last fun _ s => .pure _ s

theorem predicts_identifier {expected : String} :
    Predicts (expect (.kind .identifier) expected) (Words Identifier) :=
  predicts_expect fun t _ h => ⟨t.text, .intro (by simpa [Token.Pattern.accepts] using h)⟩

theorem predicts_expectName {expected : String} :
    Predicts (expectName expected) (Words Identifier) :=
  predicts_identifier.last fun _ s => .pure _ s

/-- A choice by whether the next token has a text. -/
theorem PredictsAt.ifText {text : String} (hs : s.Lexed) (hterm : isTerminal text = true)
    (hp : s.stream.peek (.text text) = true → s.next.rest.length < s.rest.length →
      PredictsAt A s.next p)
    (hq : s.stream.peek (.text text) = false → PredictsAt B s q) :
    PredictsAt (Terminal text * A + B) s (do if ← acceptText text then p else q) := by
  by_cases hpeek : s.stream.peek (.text text) = true
  · obtain ⟨u, hrest, hu⟩ := is_of_peek hs hterm hpeek
    have hlt : s.next.rest.length < s.rest.length := by
      rw [hrest]
      exact Nat.lt_succ_self _
    have hnext : PredictsAt ({[u]} * A) s (do if ← acceptText text then p else q) := by
      refine (hp hpeek hlt).next hrest fun t _ ht => ?_
      have hhead : t.rest.head? = s.rest.head? := by rw [ht, hrest, List.head?_cons]
      rw [acceptText_bind, peek_congr hhead, hpeek]
      rfl
    refine hnext.mono ?_
    rintro _ ⟨_, rfl, us, hus, rfl⟩
    exact Or.inl (Language.append_mem_mul ⟨u, hu, rfl⟩ hus)
  · rw [Bool.not_eq_true] at hpeek
    refine ((hq hpeek).same fun t _ ht => ?_).mono fun _ => Or.inr
    rw [acceptText_bind, peek_congr ht, hpeek]
    rfl

theorem Predicts.ifText {text : String} (hterm : isTerminal text = true) (hp : Predicts p A)
    (hq : Predicts q B) :
    Predicts (do if ← acceptText text then p else q) (Terminal text * A + B) :=
  fun s hs => .ifText hs hterm (fun _ _ => hp s.next hs.next) fun _ => hq s hs

theorem predicts_optionalAfter {γ : Type} {text : String} {L : Phrase γ}
    (hterm : isTerminal text = true) (hp : Predicts p (Words L)) :
    Predicts (optionalAfter text p) (Words (Optional (Led text L))) := by
  have h := (hp.last (f := fun a => pure (some a)) fun a s => .pure _ s).ifText hterm (.pure none)
  exact h.mono (le_trans (add_le_add led_le le_rfl) optional_le)

/-! ## Loops -/

/-- A loop does one round after another, and each round passes a token before it goes on:
    what it does depends on the rounds after it in shorter states only. -/
structure Repeats (loop : List Token → ι → Parse α) (round : (ι → Parse α) → ι → Parse α) :
    Prop where
  unfold : ∀ t bound i, loop (t :: bound) i = round (loop bound) i
  stop : ∀ k i s, s.rest = [] → round k i s = loop [] i s
  round_congr : ∀ {k k' : ι → Parse α} {i : ι} {s : ParserState},
    (∀ j s', s'.rest.length < s.rest.length → k j s' = k' j s') → round k i s = round k' i s

/-- The loop, with the tokens ahead to bound its rounds. -/
abbrev unbounded (loop : List Token → ι → Parse α) (i : ι) : Parse α := do
  loop (← stream).rest i

namespace Repeats

variable {loop : List Token → ι → Parse α} {round : (ι → Parse α) → ι → Parse α}

/-- Any bound will do that the tokens ahead do not exceed. -/
theorem eq_of_length_le (h : Repeats loop round) (bound bound' : List Token) (i : ι)
    (hb : s.rest.length ≤ bound.length) (hb' : s.rest.length ≤ bound'.length) :
    loop bound i s = loop bound' i s := by
  induction bound generalizing bound' i s with
  | nil =>
    -- A bound that has run out says that no tokens are left, and then a round is the last one.
    have hnil : s.rest = [] := List.length_eq_zero_iff.1 (Nat.le_zero.1 hb)
    cases bound' with
    | nil => rfl
    | cons t bound' => rw [h.unfold, h.stop _ i s hnil]
  | cons t bound ih =>
    cases bound' with
    | nil =>
      have hnil : s.rest = [] := List.length_eq_zero_iff.1 (Nat.le_zero.1 hb')
      rw [h.unfold, h.stop _ i s hnil]
    | cons t' bound' =>
      rw [h.unfold, h.unfold]
      refine h.round_congr fun j s' hlt => ih bound' j ?_ ?_
      · exact Nat.le_of_lt_succ (Nat.lt_of_lt_of_le hlt hb)
      · exact Nat.le_of_lt_succ (Nat.lt_of_lt_of_le hlt hb')

/-- The loop is one round and the loop again. -/
theorem unbounded_eq (h : Repeats loop round) (i : ι) (s : ParserState) :
    unbounded loop i s = round (unbounded loop) i s := by
  show loop s.rest i s = _
  cases hrest : s.rest with
  | nil => exact (h.stop _ i s hrest).symm
  | cons t ts =>
    rw [h.unfold]
    refine h.round_congr fun j s' hlt => h.eq_of_length_le _ _ j ?_ (Nat.le_refl _)
    rw [hrest] at hlt
    exact Nat.le_of_lt_succ hlt

/-- What one round predicts, given that shorter states are predicted, is predicted. -/
theorem predicts (h : Repeats loop round)
    (hround : ∀ i s, s.Lexed →
      (∀ j s', s'.Lexed → s'.rest.length < s.rest.length → PredictsAt A s' (unbounded loop j)) →
        PredictsAt A s (round (unbounded loop) i)) (i : ι) : Predicts (unbounded loop i) A := by
  intro s hs
  induction hn : s.rest.length using Nat.strongRecOn generalizing i s with
  | ind n ih =>
    refine (hround i s hs fun j s' hs' hlt => ih _ (hn ▸ hlt) j s' hs' rfl).same fun t _ _ => ?_
    exact h.unbounded_eq i t

end Repeats

theorem bind_congr_first {p' : Parse α} (h : p s = p' s) : (p >>= f) s = (p' >>= f) s := by
  show EStateM.bind p f s = EStateM.bind p' f s
  rw [EStateM.bind, EStateM.bind, h]

theorem bind_congr_of_ok {g : α → Parse β}
    (h : ∀ a s', p s = .ok a s' → f a s' = g a s') : (p >>= f) s = (p >>= g) s := by
  cases hp : p s with
  | ok a s' => rw [bind_of_ok hp, bind_of_ok hp, h a s' hp]
  | error e s' => rw [bind_of_error hp, bind_of_error hp]

/-- What follows a parser that moves forward sees no more tokens than were ahead of it. -/
theorem bind_congr_of_moves {g : α → Parse β} (hp : Moves p)
    (h : ∀ a s', s'.rest.length ≤ s.rest.length → f a s' = g a s') :
    (p >>= f) s = (p >>= g) s :=
  bind_congr_of_ok fun a s' ha => h a s' (hp.of_ok ha).length_le

theorem length_next_lt {u : Token} (h : s.stream.next? = some u) :
    s.next.rest.length < s.rest.length := by
  rw [rest_of_next? h]
  exact Nat.lt_succ_self _

/-- What follows a token sees fewer tokens than were ahead of it. -/
theorem ifText_congr {text : String} {p' q' : Parse α}
    (hp : s.next.rest.length < s.rest.length → p s.next = p' s.next) (hq : q s = q' s) :
    (do if ← acceptText text then p else q : Parse α) s =
      (do if ← acceptText text then p' else q' : Parse α) s := by
  rw [acceptText_bind, acceptText_bind]
  split
  · rename_i hpeek
    obtain ⟨u, hu⟩ := TokenStream.exists_of_peek hpeek
    exact hp (length_next_lt hu)
  · exact hq

/-- At the end of the tokens nothing comes next. -/
theorem peek_of_rest_nil (h : s.rest = []) (P : Token.Pattern) : s.stream.peek P = false := by
  show s.rest.head?.any P.accepts = false
  rw [h]
  rfl

/-! ## Lists -/

section
variable {item : Parse α}

theorem repeats_listTail (h : Moves item) (closing : String) :
    Repeats (fun bound (_ : Unit) => listTail item closing bound) fun k _ => do
      if ← acceptText closing then return []
      else
        expectText "," s!"',' or '{closing}'"
        let a ← item
        let as ← k ()
        return a :: as where
  unfold _ _ _ := rfl
  stop k _ s hs := by
    have hcomma : expectText "," s!"',' or '{closing}'" s =
        .error (missing s.stream s!"',' or '{closing}'") s := by
      rw [expectText, discard_eq_error, expect, stream_bind,
        show s.stream.next? = none from congrArg List.head? hs]
      rfl
    rw [acceptText_bind, peek_of_rest_nil hs]
    exact bind_of_error hcomma
  round_congr {k k' _ s} hk := by
    refine ifText_congr (fun _ => rfl) (bind_congr_of_ok fun _ s₁ hcomma => ?_)
    obtain ⟨u, hu, -, rfl⟩ := expectText_eq_ok.1 hcomma
    refine bind_congr_of_moves h fun a s₂ hle => bind_congr_first (hk () s₂ ?_)
    exact Nat.lt_of_le_of_lt hle (length_next_lt hu)

theorem predicts_listTail {γ : Type} {L : Phrase γ} [Spellable (Words L)] (h : Moves item)
    (hi : Predicts item (Words L)) :
    Predicts (unbounded (fun bound (_ : Unit) => listTail item ")" bound) ())
      ((Terminal "," * Words L)∗ * Terminal ")") := by
  refine (repeats_listTail h ")").predicts (fun _ s hs ih => ?_) ()
  have hmore : ∀ expected,
      PredictsAt (Terminal "," * (Words L * ((Terminal "," * Words L)∗ * Terminal ")"))) s (do
        expectText "," expected
        let a ← item
        let as ← unbounded (fun bound (_ : Unit) => listTail item ")" bound) ()
        return a :: as) := by
    intro expected
    refine (predicts_expectText (by decide) s hs).bind fun us _ s₁ hus hrest => ?_
    refine (hi s₁ (hs.after hrest)).bind fun vs a s₂ _ hrest₁ => ?_
    refine (ih () s₂ ((hs.after hrest).after hrest₁) ?_).last fun as s₃ => .pure _ s₃
    obtain ⟨t, -, rfl⟩ := hus
    rw [hrest, hrest₁, List.length_append, List.length_append]
    simp only [List.length_cons, List.length_nil]
    omega
  refine (PredictsAt.ifText hs (by decide) (fun _ _ => .pure [] s.next) fun _ => hmore _).mono ?_
  rw [mul_one, ← mul_assoc, ← mul_assoc]
  refine add_le (le_mul_of_one_le_left' one_le_kstar) ?_
  exact mul_le_mul_left mul_kstar_le_kstar (Terminal ")")

theorem predicts_commaSeparated {γ : Type} {L : Phrase γ} [Spellable (Words L)] (h : Moves item)
    (hi : Predicts item (Words L)) :
    Predicts (commaSeparated item ")") (Words (Enclosed L)) := by
  have hitems : Predicts (do
      let a ← item
      let as ← unbounded (fun bound (_ : Unit) => listTail item ")" bound) ()
      return a :: as) (Words L * ((Terminal "," * Words L)∗ * Terminal ")")) :=
    hi.bind fun a => (predicts_listTail h hi).last fun as s => .pure _ s
  refine (Predicts.ifText (by decide) (.pure []) hitems).mono ?_
  rw [mul_one]
  exact enclosed_le

end

end Parse

end TinyScript
