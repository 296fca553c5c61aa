import TinyScript.Proofs.Tree.Acceptance

/-
  Every expression that the grammar derives is accepted.

  `Parse.Reads room p L R stops`: if the next tokens derive a tree of `L`, and none of the
  texts `stops` comes after them, then `p` moves past just these tokens, and its result
  is that tree in the sense of `R`.  The parser is greedy: the texts in `stops` are those
  with which it would go on.  It opens at most `room` levels, which the state has to admit,
  and leaves as many.

  A node is built only if its recorded height is within the limit, so that the rules for
  expressions need to know that the heights recorded for the children are those of their
  trees (`Parse.Reader`).
-/

namespace TinyScript

open Grammar

/-- None of the texts comes next. -/
def Stops (texts : List String) (ts : List Token) : Prop := ∀ t us, ts = t :: us → t.text ∉ texts

namespace ParserState

/-- All tokens ahead come from a text, and `room` more levels can be opened. -/
structure Admits (s : ParserState) (room : Nat) : Prop where
  lexed : s.Lexed
  depth : s.depth + room ≤ nestingLimit

variable {s s' : ParserState} {room : Nat}

theorem Admits.next (h : s.Admits room) : s.next.Admits room := ⟨h.lexed.next, h.depth⟩

theorem Admits.bump (h : s.Admits room) : s.bump.Admits room := ⟨h.lexed, h.depth⟩

theorem Admits.record (h : s.Admits room) (height : Nat) : (s.record height).Admits room :=
  ⟨h.lexed, h.depth⟩

theorem Admits.deeper (h : s.Admits (room + 1)) : s.deeper.Admits room := by
  refine ⟨h.lexed, ?_⟩
  have hdepth := h.depth
  rw [depth_deeper]
  omega

end ParserState

/-- The parser accepts every phrase that cannot go on. -/
def Parse.Reads {α β : Type} (room : Nat) (p : Parse α) (L : Phrase β) (R : α → β → Prop)
    (stops : List String) : Prop :=
  ∀ s ts b rest, s.Admits room → s.rest = ts ++ rest → L ts b → Stops stops rest →
    ∃ a s', p s = .ok a s' ∧ s'.Admits room ∧ s'.rest = rest ∧ R a b

/-! ## Single tokens -/

section
variable {texts texts' : List String} {t : Token} {ts : List Token}

theorem stops_nil (ts : List Token) : Stops [] ts := fun _ _ _ => List.not_mem_nil

theorem Stops.mono (h : Stops texts ts) (hsub : ∀ x ∈ texts', x ∈ texts) : Stops texts' ts :=
  fun t us hts hmem => h t us hts (hsub _ hmem)

theorem Token.Is.stops {text : String} (h : t.Is text) (hmem : text ∉ texts) :
    Stops texts (t :: ts) := by
  intro u us hu
  obtain ⟨rfl, -⟩ := List.cons.inj hu
  rw [h.1]
  exact hmem

end

theorem BinaryOperator.text_injective {o o' : BinaryOperator} (h : o.text = o'.text) : o = o' := by
  have hfind := BinaryOperator.ofText?_text o
  rw [h, BinaryOperator.ofText?_text o'] at hfind
  exact (Option.some.inj hfind).symm

namespace Parse

variable {α β : Type} {s : ParserState}

theorem next?_of_rest {t : Token} {ts : List Token} (h : s.rest = t :: ts) :
    s.stream.next? = some t := by
  change s.rest.head? = some t
  rw [h]
  rfl

theorem rest_next_of_rest {t : Token} {ts : List Token} (h : s.rest = t :: ts) :
    s.next.rest = ts := by
  rw [ParserState.rest_next, h]
  rfl

theorem peek_of_rest {t : Token} {ts : List Token} (h : s.rest = t :: ts) (text : String) :
    s.stream.peek (.text text) = (t.text == text) := by
  simp [TokenStream.peek, next?_of_rest h, Token.Pattern.accepts]

theorem peek_of_stops {texts : List String} {text : String} (h : Stops texts s.rest)
    (hmem : text ∈ texts) : s.stream.peek (.text text) = false := by
  cases hrest : s.rest with
  | nil =>
    have hnext : s.stream.next? = none := List.head?_eq_none_iff.2 hrest
    simp [TokenStream.peek, hnext]
  | cons t ts =>
    rw [peek_of_rest hrest, beq_eq_false_iff_ne]
    rintro rfl
    exact h t ts hrest hmem

theorem reads_expectText {text : String} {t : Token} {ts : List Token}
    (hrest : s.rest = t :: ts) (ht : t.Is text) :
    (∀ expected, expectText text expected s = .ok () s.next) ∧ s.next.rest = ts :=
  ⟨fun _ => expectText_eq_ok.2 ⟨t, next?_of_rest hrest, ht.1, rfl⟩, rest_next_of_rest hrest⟩

theorem reads_expectName {room : Nat} (expected : String) (stops : List String) :
    Reads room (expectName expected) Identifier Eq stops := by
  intro s ts name rest hs hrest h _
  cases h with
  | @intro t hkind =>
    refine ⟨t.text, s.next, ?_, hs.next, rest_next_of_rest hrest, rfl⟩
    exact expectName_eq_ok.2 ⟨t, next?_of_rest hrest, hkind, rfl, rfl⟩

section
variable {room : Nat} {p : Parse α} {L : Phrase β} {R : α → β → Prop} {stops : List String}

/-- A terminal and what follows it. -/
theorem Reads.led (hp : Reads room p L R stops) {text : String} {ts rest : List Token} {b : β}
    (hs : s.Admits room) (hrest : s.rest = ts ++ rest) (h : Led text L ts b)
    (hstop : Stops stops rest) :
    s.stream.peek (.text text) = true ∧ (∀ expected, expectText text expected s = .ok () s.next) ∧
      ∃ a s', p s.next = .ok a s' ∧ s'.Admits room ∧ s'.rest = rest ∧ R a b := by
  cases h with
  | intro ht hL =>
    refine ⟨by rw [peek_of_rest hrest, ht.1, beq_self_eq_true],
      (reads_expectText hrest ht).1, ?_⟩
    exact hp s.next _ b rest hs.next (rest_next_of_rest hrest) hL hstop

/-- A parser one level of nesting deeper. -/
theorem Reads.nested (hp : Reads room p L R stops) :
    Reads (room + 1) (nested p) L R stops := by
  intro s ts b rest hs hrest h hstop
  have hdepth : s.depth ≠ nestingLimit := by
    have hroom := hs.depth
    omega
  obtain ⟨a, s', ha, hs', hrest', hR⟩ := hp s.deeper ts b rest hs.deeper hrest h hstop
  refine ⟨a, s'.shallower, nested_eq_ok.2 ⟨hdepth, s', ha, rfl⟩, ⟨hs'.lexed, ?_⟩, hrest', hR⟩
  have hroom := hs'.depth
  have hroom' := hs.depth
  rw [ParserState.depth_shallower]
  omega

theorem reads_optionalAfter (hp : Reads room p L R stops) (text : String) :
    Reads room (optionalAfter text p) (Optional (Led text L)) (Option.Rel R) (text :: stops) := by
  intro s ts b rest hs hrest h hstop
  cases h with
  | none =>
    have hstop' : Stops (text :: stops) s.rest := by rwa [hrest]
    refine ⟨none, s, ?_, hs, hrest, .none⟩
    exact optionalAfter_eq_ok.2 (Or.inl ⟨peek_of_stops hstop' (by simp), rfl, rfl⟩)
  | some h =>
    obtain ⟨hpeek, -, a, s', ha, hs', hrest', hR⟩ :=
      hp.led hs hrest h (hstop.mono fun x hx => List.mem_cons_of_mem text hx)
    have hrun : optionalAfter text p s = .ok (some a) s' :=
      optionalAfter_eq_ok.2 (Or.inr ⟨hpeek, a, rfl, ha⟩)
    exact ⟨some a, s', hrun, hs', hrest', .some hR⟩

/-! ## Lists -/

theorem reads_listTail (hp : Reads room p L R stops) (hcomma : "," ∉ stops) (hclose : ")" ∉ stops)
    {ts rest : List Token} {bs : List β} (h : ListTail L ts bs) {bound : List Token}
    (hs : s.Admits room) (hrest : s.rest = ts ++ rest) (hbound : s.rest.length ≤ bound.length) :
    ∃ as s', listTail p ")" bound s = .ok as s' ∧ s'.Admits room ∧ s'.rest = rest ∧
      List.Forall₂ R as bs := by
  induction h generalizing s bound with
  | @close t ht =>
    cases bound with
    | nil =>
      rw [hrest] at hbound
      simp at hbound
    | cons _ bound =>
      refine ⟨[], s.next, ?_, hs.next, rest_next_of_rest hrest, .nil⟩
      rw [listTail, acceptText_bind, peek_of_rest hrest, ht.1, if_pos (by simp)]
      rfl
  | @cons t ts us b bs ht hL hLs ih =>
    cases bound with
    | nil =>
      rw [hrest] at hbound
      simp at hbound
    | cons _ bound =>
      rw [List.cons_append, List.append_assoc] at hrest
      obtain ⟨hexpect, hrest₁⟩ := reads_expectText hrest ht
      have hstop : Stops stops (us ++ rest) := by
        cases hLs with
        | close ht' => exact ht'.stops hclose
        | cons ht' _ _ => exact ht'.stops hcomma
      obtain ⟨a, s₁, ha, hs₁, hrest₂, hR⟩ := hp s.next ts b (us ++ rest) hs.next hrest₁ hL hstop
      have hlen : s₁.rest.length ≤ bound.length := by
        rw [hrest] at hbound
        rw [hrest₂]
        simp only [List.length_cons, List.length_append] at hbound ⊢
        omega
      obtain ⟨as, s₂, has, hs₂, hrest₃, hRs⟩ := ih hs₁ hrest₂ hlen
      refine ⟨a :: as, s₂, ?_, hs₂, hrest₃, .cons hR hRs⟩
      rw [listTail, acceptText_bind, peek_of_rest hrest, ht.1, if_neg (by decide)]
      simp only [Bool.false_eq_true, ↓reduceIte]
      rw [bind_of_ok (hexpect _), bind_of_ok ha, bind_of_ok has]
      rfl

/-- No phrase starts with the text. -/
def Avoids (L : Phrase β) (text : String) : Prop :=
  ∀ ts b, (∀ t ∈ ts, t.Lexed) → L ts b → ∃ t us, ts = t :: us ∧ t.text ≠ text

theorem reads_commaSeparated (hp : Reads room p L R stops) (hL : Avoids L ")")
    (hcomma : "," ∉ stops) (hclose : ")" ∉ stops) (stops' : List String) :
    Reads room (commaSeparated p ")") (Enclosed L) (List.Forall₂ R) stops' := by
  intro s ts bs rest hs hrest h _
  cases h with
  | @close t ht =>
    refine ⟨[], s.next, ?_, hs.next, rest_next_of_rest hrest, .nil⟩
    rw [commaSeparated, acceptText_bind, peek_of_rest hrest, ht.1, if_pos (by simp)]
    rfl
  | @items ts us b bs hb hbs =>
    have hlexed : ∀ t ∈ ts, t.Lexed := fun t ht => hs.lexed t (by rw [hrest]; simp [ht])
    obtain ⟨t, vs, rfl, ht⟩ := hL ts b hlexed hb
    have hstop : Stops stops (us ++ rest) := by
      cases hbs with
      | close ht' => exact ht'.stops hclose
      | cons ht' _ _ => exact ht'.stops hcomma
    have hrest' : s.rest = (t :: vs) ++ (us ++ rest) := by rw [hrest, List.append_assoc]
    obtain ⟨a, s₁, ha, hs₁, hrest₁, hR⟩ := hp s _ b _ hs hrest' hb hstop
    obtain ⟨as, s₂, has, hs₂, hrest₂, hRs⟩ :=
      reads_listTail hp hcomma hclose hbs hs₁ hrest₁ (Nat.le_refl _)
    refine ⟨a :: as, s₂, ?_, hs₂, hrest₂, .cons hR hRs⟩
    rw [commaSeparated, acceptText_bind, peek_of_rest hrest', if_neg (by simpa using ht)]
    simp only [Bool.false_eq_true, ↓reduceIte]
    rw [bind_of_ok ha, stream_bind]
    exact bind_of_ok has

end

/-! ## Primary expressions -/

/-- A parser of expressions that moves on, knows what it gives, and accepts every phrase. -/
structure Reader (room : Nat) (p : Parse Expr) (L : Phrase Expr) (stops : List String) :
    Prop where
  moves : Moves p
  gives : Gives ParserState.Knows p
  reads : Reads room p L Expr.Is stops

/-- What may be in the place of `inner`: it stops at the end of a list and of a group. -/
structure Inner (room : Nat) (inner : Parse Expr) (L : Phrase Expr) (stops : List String) : Prop
    extends Reader room inner L stops where
  avoids : Avoids L ")"
  comma : "," ∉ stops
  close : ")" ∉ stops

section
variable {room : Nat} {inner : Parse Expr} {L : Phrase Expr} {stops : List String}

/-- A new node over known children that is not too high. -/
theorem build_of_low (make : Node → Expr) {b : Expr} (hbare : ∀ n, (make n).bare = b)
    (hchildren : ∀ n, ∀ e ∈ (make n).children, s.Knows e) (hlow : b.height ≤ nestingLimit)
    (offset : Nat) : ∃ e height, build offset make s = .ok e (s.record height) ∧ e.Is b := by
  refine ⟨_, _, build_eq_ok.2 ⟨rfl, ?_, rfl⟩, hbare _⟩
  rwa [ParserState.nodeHeight_of_knows (hchildren _), ← Expr.height_bare, hbare]

/-- A new node without children. -/
theorem build_leaf (make : Node → Expr) {b : Expr} (hbare : ∀ n, (make n).bare = b)
    (hchildren : ∀ n, (make n).children = []) (hlow : b.height ≤ nestingLimit)
    (offset : Nat) (s : ParserState) :
    ∃ e height, build offset make s = .ok e (s.record height) ∧ e.Is b :=
  build_of_low make hbare (fun n e he => by rw [hchildren n] at he; cases he) hlow offset

theorem Inner.arguments (hi : Inner room inner L stops) {ts rest : List Token} {bs : List Expr}
    (hs : s.Admits room) (hrest : s.rest = ts ++ rest) (h : Led "(" (Enclosed L) ts bs) :
    s.stream.peek (.text "(") = true ∧ ∃ es s', arguments inner s.next = .ok es s' ∧
      s'.Admits room ∧ s'.rest = rest ∧ Expr.bareList es = bs ∧ ∀ e ∈ es, s'.Knows e := by
  have hreads := reads_commaSeparated hi.reads hi.avoids hi.comma hi.close []
  obtain ⟨hpeek, -, es, s', hes, hs', hrest', hR⟩ := hreads.led hs hrest h (stops_nil rest)
  refine ⟨hpeek, es, s', hes, hs', hrest', ?_, gives_arguments hi.moves hi.gives s.next es s' hes⟩
  rw [Expr.bareList_eq_map]
  exact map_eq_of_forall₂ hR

theorem noKeywordLiteral_of_rest {t : Token} {ts : List Token} (hrest : s.rest = t :: ts)
    (ht : t.text ∉ valueWords.map Prod.fst) : NoKeywordLiteral s := by
  intro w hw
  rw [peek_of_rest hrest, beq_eq_false_iff_ne]
  rintro htext
  exact ht (List.mem_map.2 ⟨w, hw, htext.symm⟩)

theorem text_notMem_valueWords {t : Token} (h : t.Lexed)
    (hkind : t.kind ≠ .identifier) : t.text ∉ valueWords.map Prod.fst := by
  intro hmem
  have hall : ∀ x ∈ valueWords.map Prod.fst,
      isTerminal x = true ∧ terminalKind x = .identifier := by decide
  obtain ⟨hterm, hx⟩ := hall t.text hmem
  exact hkind ((h.is rfl hterm).2.trans hx)

theorem primary_of_isName (hs : s.Lexed) {t : Token} {ts : List Token} (hrest : s.rest = t :: ts)
    (ht : IsName t) : primary inner s = named inner s.stream.currentOffset s := by
  have hlit : s.stream.next?.filter Token.isLiteral = none := by
    simp [next?_of_rest hrest, Token.isLiteral, ht.1]
  have hopen : s.stream.peek (.text "(") = false := by
    rw [peek_of_rest hrest, beq_eq_false_iff_ne]
    intro htext
    have hkind := ((hs t (by simp [hrest])).is htext (by decide)).2
    rw [ht.1] at hkind
    exact absurd hkind (by decide)
  have hid : s.stream.peek (.kind .identifier) = true := by
    simp [TokenStream.peek, next?_of_rest hrest, Token.Pattern.accepts, ht.1]
  rw [primary_of_noKeywordLiteral (noKeywordLiteral_of_rest hrest ht.2), hlit]
  simp only [hopen, hid, Bool.false_eq_true, ↓reduceIte]

theorem reads_primary (hi : Inner room inner L stops) :
    Reads room (primary inner) (Low (Primary L)) Expr.Is ["("] := by
  rintro s ts b rest hs hrest ⟨h, hlow⟩ hstop
  cases h with
  | @word t w hw ht =>
    obtain ⟨e, height, hbuild, he⟩ :=
      build_leaf (.literal · w.2) (fun _ => rfl) (fun _ => rfl) hlow s.stream.currentOffset s.next
    refine ⟨e, s.next.record height, ?_, hs.next.record height, rest_next_of_rest hrest, he⟩
    rwa [primary_of_valueWord hw (by rw [peek_of_rest hrest, ht.1, beq_self_eq_true])]
  | @literal t value hlit hvalue =>
    obtain ⟨e, height, hbuild, he⟩ :=
      build_leaf (.literal · value) (fun _ => rfl) (fun _ => rfl) hlow t.offset s.next
    have hkind : t.kind ≠ .identifier := by
      intro hk
      simp [Token.isLiteral, hk] at hlit
    have hno := noKeywordLiteral_of_rest hrest
      (text_notMem_valueWords (hs.lexed t (by simp [hrest])) hkind)
    have hfilter : s.stream.next?.filter Token.isLiteral = some t := by
      simp [next?_of_rest hrest, hlit]
    refine ⟨e, s.next.record height, ?_, hs.next.record height, rest_next_of_rest hrest, he⟩
    rw [primary_of_noKeywordLiteral hno, hfilter]
    simp only [literal, advance_bind, hvalue]
    exact hbuild
  | @group t ts t' b ht hb ht' =>
    have hno := noKeywordLiteral_of_rest hrest (by rw [ht.1]; decide)
    have hkind : t.kind = .operator := ht.2.trans (by decide)
    have hfilter : s.stream.next?.filter Token.isLiteral = none := by
      simp [next?_of_rest hrest, Token.isLiteral, hkind]
    have hopen : s.stream.peek (.text "(") = true := by
      rw [peek_of_rest hrest, ht.1, beq_self_eq_true]
    have hrest₁ : s.next.rest = ts ++ (t' :: rest) := by
      rw [rest_next_of_rest hrest]
      simp
    obtain ⟨e, s₁, he, hs₁, hrest₂, rfl⟩ :=
      hi.reads s.next ts b (t' :: rest) hs.next hrest₁ hb (ht'.stops hi.close)
    obtain ⟨hclose, hrest₃⟩ := reads_expectText hrest₂ ht'
    have hknown : s₁.next.Knows e := (hi.gives _ _ _ he).next
    obtain ⟨e', height, hbuild, he'⟩ := build_of_low (.group · e) (fun _ => rfl)
      (fun _ => List.forall_mem_singleton.2 hknown) hlow s.stream.currentOffset
    refine ⟨e', s₁.next.record height, ?_, hs₁.next.record height, hrest₃, he'⟩
    rw [primary_of_noKeywordLiteral hno, hfilter]
    simp only [hopen, ↓reduceIte]
    rw [bind_of_ok he, bind_of_ok (hclose _)]
    exact hbuild
  | @var t ht =>
    obtain ⟨e, height, hbuild, he⟩ :=
      build_leaf (.var · t.text) (fun _ => rfl) (fun _ => rfl) hlow s.stream.currentOffset s.next
    have hrest₁ : s.next.rest = rest := rest_next_of_rest hrest
    have hopen : s.next.stream.peek (.text "(") = false := by
      refine peek_of_stops ?_ (List.mem_singleton.2 rfl)
      rwa [hrest₁]
    have hname : expectName "a name" s = .ok t.text s.next :=
      expectName_eq_ok.2 ⟨t, next?_of_rest hrest, ht.1, rfl, rfl⟩
    refine ⟨e, s.next.record height, ?_, hs.next.record height, hrest₁, he⟩
    rw [primary_of_isName hs.lexed hrest ht, named, bind_of_ok hname, acceptText_bind, hopen]
    exact hbuild
  | @call t ts bs ht hbs =>
    have hrest₁ : s.next.rest = ts ++ rest := rest_next_of_rest hrest
    obtain ⟨hopen, es, s₁, hes, hs₁, hrest₂, rfl, hknown⟩ := hi.arguments hs.next hrest₁ hbs
    have hname : expectName "a name" s = .ok t.text s.next :=
      expectName_eq_ok.2 ⟨t, next?_of_rest hrest, ht.1, rfl, rfl⟩
    obtain ⟨e, height, hbuild, he⟩ := build_of_low (.call · t.text es) (fun _ => rfl)
      (fun _ => hknown) hlow s.stream.currentOffset
    refine ⟨e, s₁.record height, ?_, hs₁.record height, hrest₂, he⟩
    rw [primary_of_isName hs.lexed hrest ht, named, bind_of_ok hname, acceptText_bind, hopen]
    simp only [↓reduceIte]
    rw [bind_of_ok hes]
    exact hbuild

end

/-! ## Loops -/

/-- A loop that has come to `e₀` comes to `e`, whatever bounds its rounds. -/
def Reaches (loop : List Token → Expr → Parse Expr) (e₀ : Expr) (s₀ : ParserState) (e : Expr)
    (s : ParserState) : Prop :=
  ∀ bound, s₀.rest.length ≤ bound.length →
    ∃ bound', s.rest.length ≤ bound'.length ∧ loop bound e₀ s₀ = loop bound' e s

section
variable {loop : List Token → Expr → Parse Expr} {e₀ e e' : Expr} {s₀ s' : ParserState}

theorem Reaches.refl (e : Expr) (s : ParserState) : Reaches loop e s e s :=
  fun bound h => ⟨bound, h, rfl⟩

/-- One more round, which consumes a token. -/
theorem Reaches.step (h : Reaches loop e₀ s₀ e s) (hlt : s'.rest.length < s.rest.length)
    (hround : ∀ t bound, loop (t :: bound) e s = loop bound e' s') :
    Reaches loop e₀ s₀ e' s' := by
  intro bound hbound
  obtain ⟨bound', hbound', hloop⟩ := h bound hbound
  cases bound' with
  | nil =>
    rw [List.length_nil] at hbound'
    omega
  | cons t bound' =>
    rw [List.length_cons] at hbound'
    exact ⟨bound', by omega, hloop.trans (hround t bound')⟩

/-- A loop that comes to its end. -/
theorem Reaches.ends (h : Reaches loop e₀ s₀ e s) (hend : ∀ bound, loop bound e s = .ok e s) :
    loop s₀.rest e₀ s₀ = .ok e s := by
  obtain ⟨bound, -, hloop⟩ := h s₀.rest (Nat.le_refl _)
  rw [hloop, hend]

end

/-! ## Secondary expressions -/

section
variable {room : Nat} {inner : Parse Expr} {L : Phrase Expr} {stops : List String}

/-- A member that comes next. -/
theorem peek_member {us rest : List Token} {x : String} (hrest : s.rest = us ++ rest)
    (h : Led "." Identifier us x) :
    s.stream.peek (.text ".") = true ∧ s.next.next.rest = rest ∧
      ∃ t, t.text = x ∧
        ∀ expected, expect (.kind .identifier) expected s.next = .ok t s.next.next := by
  cases h with
  | @intro d us _ hd hx =>
    cases hx with
    | @intro t hkind =>
      have hrest₁ := rest_next_of_rest hrest
      refine ⟨by rw [peek_of_rest hrest, hd.1, beq_self_eq_true], rest_next_of_rest hrest₁, t, rfl,
        fun _ => expect_eq_ok.2 ⟨next?_of_rest hrest₁, ?_, rfl⟩⟩
      simp [Token.Pattern.accepts, hkind]

theorem reaches_members (hi : Inner room inner L stops) {ts : List Token} {b : Expr}
    (h : Secondary L ts b) {rest : List Token} (hs : s.Admits room) (hrest : s.rest = ts ++ rest)
    (hlow : b.height ≤ nestingLimit) (hstop : Stops ["("] rest) :
    ∃ e₀ s₀ e s', primary inner s = .ok e₀ s₀ ∧ Reaches (members inner) e₀ s₀ e s' ∧
      s'.Admits room ∧ s'.Knows e ∧ s'.rest = rest ∧ e.Is b := by
  induction h generalizing rest with
  | primary hb =>
    obtain ⟨e, s', he, hs', hrest', hR⟩ := reads_primary hi s _ _ rest hs hrest ⟨hb, hlow⟩ hstop
    exact ⟨e, s', e, s', he, .refl e s', hs', gives_primary hi.moves hi.gives _ _ _ he, hrest', hR⟩
  | @field ts us b x hb hx ih =>
    rw [List.append_assoc] at hrest
    have hstop' : Stops ["("] (us ++ rest) := by
      cases hx with
      | intro hd _ => exact hd.stops (by decide)
    have hlow' : b.height ≤ nestingLimit := by
      rw [Expr.height] at hlow
      omega
    obtain ⟨e₀, s₀, e, s₁, he₀, hreach, hs₁, hknown, hrest₁, rfl⟩ := ih hrest hlow' hstop'
    obtain ⟨hdot, hrest₂, t, rfl, hname⟩ := peek_member hrest₁ hx
    rw [← hrest₂] at hstop
    have hopen : s₁.next.next.stream.peek (.text "(") = false := peek_of_stops hstop (by simp)
    obtain ⟨e', height, hbuild, he'⟩ := build_of_low (.field · e t.text) (fun _ => rfl)
      (fun _ => List.forall_mem_singleton.2 hknown.next.next) hlow t.offset
    have hmember : member inner e s₁.next = .ok e' (s₁.next.next.record height) := by
      rw [member, bind_of_ok (hname _), acceptText_bind, hopen]
      exact hbuild
    have hknown' := givesAt_member hi.moves hi.gives hknown.next _ _ hmember
    refine ⟨e₀, s₀, e', _, he₀, hreach.step ?_ fun t bound => ?_, hs₁.next.next.record height,
      hknown', hrest₂, he'⟩
    · rw [ParserState.rest_record, hrest₂, hrest₁, List.length_append]
      cases hx
      simp
    · rw [members, acceptText_bind, hdot]
      exact bind_of_ok hmember
  | @methodCall ts us vs b f bs hb hx hbs ih =>
    rw [List.append_assoc, List.append_assoc] at hrest
    have hstop' : Stops ["("] (us ++ (vs ++ rest)) := by
      cases hx with
      | intro hd _ => exact hd.stops (by decide)
    have hlow' : b.height ≤ nestingLimit := by
      rw [Expr.height] at hlow
      omega
    obtain ⟨e₀, s₀, e, s₁, he₀, hreach, hs₁, hknown, hrest₁, rfl⟩ := ih hrest hlow' hstop'
    obtain ⟨hdot, hrest₂, t, rfl, hname⟩ := peek_member hrest₁ hx
    obtain ⟨hopen, es, s₂, hes, hs₂, hrest₃, rfl, hargs⟩ := hi.arguments hs₁.next.next hrest₂ hbs
    have hreceiver : s₂.Knows e := by
      obtain ⟨u, hu⟩ := TokenStream.exists_of_peek hopen
      have honward := (ParserState.Onward.next hu).trans ((moves_arguments hi.moves).of_ok hes)
      exact hknown.next.next.mono honward
    obtain ⟨e', height, hbuild, he'⟩ := build_of_low (.methodCall · e t.text es) (fun _ => rfl)
      (fun _ => List.forall_mem_cons.2 ⟨hreceiver, hargs⟩) hlow t.offset
    have hmember : member inner e s₁.next = .ok e' (s₂.record height) := by
      rw [member, bind_of_ok (hname _), acceptText_bind, hopen]
      simp only [↓reduceIte]
      rw [bind_of_ok hes]
      exact hbuild
    have hknown' := givesAt_member hi.moves hi.gives hknown.next _ _ hmember
    refine ⟨e₀, s₀, e', _, he₀, hreach.step ?_ fun t bound => ?_, hs₂.record height, hknown',
      hrest₃, he'⟩
    · rw [ParserState.rest_record, hrest₃, hrest₁, List.length_append, List.length_append]
      cases hx
      simp only [List.length_cons]
      omega
    · rw [members, acceptText_bind, hdot]
      exact bind_of_ok hmember

theorem reader_secondary (hi : Inner room inner L stops) :
    Reader room (secondary inner) (Low (Secondary L)) ["(", "."] := by
  refine ⟨moves_secondary hi.moves, gives_secondary hi.moves hi.gives, ?_⟩
  rintro s ts b rest hs hrest ⟨h, hlow⟩ hstop
  obtain ⟨e₀, s₀, e, s', he₀, hreach, hs', -, hrest', hR⟩ :=
    reaches_members hi h hs hrest hlow (hstop.mono (by simp))
  rw [← hrest'] at hstop
  have hdot : s'.stream.peek (.text ".") = false := peek_of_stops hstop (by simp)
  refine ⟨e, s', ?_, hs', hrest', hR⟩
  rw [secondary, bind_of_ok he₀, stream_bind]
  refine hreach.ends fun bound => ?_
  cases bound with
  | nil => rfl
  | cons t bound =>
    rw [members, acceptText_bind, hdot]
    rfl

end

/-! ## Operators -/

section
variable {room : Nat} {operators : List BinaryOperator} {operand : Parse Expr} {L : Phrase Expr}
  {stops : List String}

theorem find?_text {o : BinaryOperator} (ho : o ∈ operators) :
    (operators.find? fun o' => o'.text == o.text) = some o := by
  cases hfind : operators.find? fun o' => o'.text == o.text with
  | none =>
    have hne := List.find?_eq_none.1 hfind o ho
    simp at hne
  | some o' =>
    have htext : o'.text = o.text := by simpa using List.find?_some hfind
    rw [BinaryOperator.text_injective htext]

theorem peekOperator_of_is {o : BinaryOperator} (ho : o ∈ operators) {t : Token}
    {ts : List Token} (hrest : s.rest = t :: ts) (ht : t.Is o.text) :
    peekOperator operators s = .ok (some o) s := by
  have hkind : t.kind = .identifier ∨ t.kind = .operator := by
    rw [ht.2, terminalKind]
    split
    · exact Or.inl rfl
    · exact Or.inr rfl
  refine peekOperator_eq_ok.2 ⟨rfl, ?_⟩
  rw [next?_of_rest hrest, Option.filter_some, if_pos (by simpa using hkind), Option.bind_some,
    ht.1, find?_text ho]

theorem peekOperator_of_stops (h : Stops (operators.map BinaryOperator.text) s.rest) :
    peekOperator operators s = .ok none s := by
  refine peekOperator_eq_ok.2 ⟨rfl, Eq.symm (Option.bind_eq_none_iff.2 fun t ht => ?_)⟩
  obtain ⟨hnext, -⟩ := Option.filter_eq_some_iff.1 ht
  refine List.find?_eq_none.2 fun o ho => ?_
  have hne := h t _ (rest_of_next? hnext)
  rw [beq_iff_eq]
  exact fun htext => hne (List.mem_map.2 ⟨o, ho, htext⟩)

theorem reaches_chain (ho : Reader room operand (Low L) stops)
    (hops : ∀ o ∈ operators, o.text ∉ stops) {ts : List Token} {b : Expr}
    (h : Chain operators L ts b) {rest : List Token} (hs : s.Admits room)
    (hrest : s.rest = ts ++ rest) (hlow : b.height ≤ nestingLimit) (hstop : Stops stops rest) :
    ∃ e₀ s₀ e s', operand s = .ok e₀ s₀ ∧ Reaches (chain operators operand) e₀ s₀ e s' ∧
      s'.Admits room ∧ s'.Knows e ∧ s'.rest = rest ∧ e.Is b := by
  induction h generalizing rest with
  | operand hb =>
    obtain ⟨e, s', he, hs', hrest', hR⟩ := ho.reads s _ _ rest hs hrest ⟨hb, hlow⟩ hstop
    exact ⟨e, s', e, s', he, .refl e s', hs', ho.gives _ _ _ he, hrest', hR⟩
  | @join ts us o b b' hb hmem hb' ih =>
    rw [List.append_assoc] at hrest
    cases hb' with
    | @intro t us _ ht hb' =>
      have hlow' : b.height ≤ nestingLimit ∧ b'.height ≤ nestingLimit := by
        rw [Expr.height] at hlow
        omega
      obtain ⟨e₀, s₀, e, s₁, he₀, hreach, hs₁, hknown, hrest₁, rfl⟩ :=
        ih hrest hlow'.1 (ht.stops (hops o hmem))
      have hrest₂ : s₁.next.rest = us ++ rest := rest_next_of_rest hrest₁
      obtain ⟨right, s₂, hright, hs₂, hrest₃, rfl⟩ :=
        ho.reads s₁.next us b' rest hs₁.next hrest₂ ⟨hb', hlow'.2⟩ hstop
      have hchildren : ∀ e' ∈ [e, right], s₂.Knows e' :=
        List.forall_mem_cons.2 ⟨hknown.next.mono (ho.moves.of_ok hright),
          List.forall_mem_singleton.2 (ho.gives _ _ _ hright)⟩
      have hjoined : GivesAt ParserState.Knows (build e.offset (.binary · o e right)) s₂ :=
        givesAt_build (fun _ => rfl) fun _ => hchildren
      obtain ⟨e', height, hbuild, he'⟩ := build_of_low (.binary · o e right) (fun _ => rfl)
        (fun _ => hchildren) hlow e.offset
      refine ⟨e₀, s₀, e', _, he₀, hreach.step ?_ fun t' bound => ?_, hs₂.record height,
        hjoined _ _ hbuild, hrest₃, he'⟩
      · rw [ParserState.rest_record, hrest₃, hrest₁, List.length_append, List.length_cons]
        omega
      · rw [chain, bind_of_ok (peekOperator_of_is hmem hrest₁ ht)]
        simp only [advance_bind]
        rw [bind_of_ok hright]
        exact bind_of_ok hbuild

theorem Reader.leftAssociative (ho : Reader room operand (Low L) stops)
    (operators : List BinaryOperator) (hops : ∀ o ∈ operators, o.text ∉ stops) :
    Reader room (leftAssociative operators operand) (Low (Chain operators L))
      (operators.map BinaryOperator.text ++ stops) := by
  refine ⟨moves_leftAssociative ho.moves operators,
    gives_leftAssociative ho.moves ho.gives operators, ?_⟩
  rintro s ts b rest hs hrest ⟨h, hlow⟩ hstop
  obtain ⟨e₀, s₀, e, s', he₀, hreach, hs', -, hrest', hR⟩ := reaches_chain ho hops h hs hrest hlow
    (hstop.mono fun x hx => List.mem_append_right _ hx)
  rw [← hrest'] at hstop
  have hnone := peekOperator_of_stops (hstop.mono fun x hx => List.mem_append_left _ hx)
  refine ⟨e, s', ?_, hs', hrest', hR⟩
  rw [Parse.leftAssociative, bind_of_ok he₀, stream_bind]
  refine hreach.ends fun bound => ?_
  cases bound with
  | nil => rfl
  | cons t bound =>
    rw [chain, bind_of_ok hnone]
    rfl

end

/-- The texts with which an expression would go on. -/
def continuations : List String :=
  [.and, .or, .less, .lessEqual, .greater, .greaterEqual, .equal, .notEqual, .add, .sub, .mul,
    .div].map BinaryOperator.text ++ ["(", "."]

theorem reader_logical {room : Nat} {inner : Parse Expr} {L : Phrase Expr} {stops : List String}
    (hi : Inner room inner L stops) :
    Reader room (logical inner) (Low (Logical L)) continuations := by
  have hm := (reader_secondary hi).leftAssociative [.mul, .div] (by decide)
  have ha := hm.leftAssociative [.add, .sub] (by decide)
  have hc := ha.leftAssociative [.less, .lessEqual, .greater, .greaterEqual, .equal, .notEqual]
    (by decide)
  exact hc.leftAssociative [.and, .or] (by decide)

/-! ## Expressions -/

/-- The token can start an expression. -/
def CanStart (t : Token) : Prop := t.isLiteral = true ∨ t.kind = .identifier ∨ t.Is "("

/-- Every phrase starts as expressions do. -/
def Opens (L : Phrase Expr) : Prop := ∀ ts b, L ts b → ∃ t us, ts = t :: us ∧ CanStart t

theorem opens_secondary (L : Phrase Expr) : Opens (Secondary L) := by
  intro ts b h
  induction h with
  | primary hb =>
    cases hb with
    | word hw ht =>
      have hall : ∀ w ∈ valueWords, terminalKind w.1 = .identifier := by decide
      exact ⟨_, _, rfl, Or.inr (Or.inl (ht.2.trans (hall _ hw)))⟩
    | literal hlit _ => exact ⟨_, _, rfl, Or.inl hlit⟩
    | group ht _ _ => exact ⟨_, _, rfl, Or.inr (Or.inr ht)⟩
    | var ht => exact ⟨_, _, rfl, Or.inr (Or.inl ht.1)⟩
    | call ht _ => exact ⟨_, _, rfl, Or.inr (Or.inl ht.1)⟩
  | field _ _ ih | methodCall _ _ _ ih =>
    obtain ⟨t, us, rfl, ht⟩ := ih
    exact ⟨t, _, rfl, ht⟩

theorem Opens.chain {L : Phrase Expr} (h : Opens L) (operators : List BinaryOperator) :
    Opens (Chain operators L) := by
  intro ts b hb
  induction hb with
  | operand hb => exact h _ _ hb
  | join _ _ _ ih =>
    obtain ⟨t, us, rfl, ht⟩ := ih
    exact ⟨t, _, rfl, ht⟩

theorem opens_expression (room : Nat) : Opens (Expression room) := by
  cases room with
  | zero => exact fun ts b h => h.elim
  | succ room =>
    rintro ts b ⟨h, -⟩
    exact ((((opens_secondary _).chain _).chain _).chain _).chain _ ts b h

theorem avoids_expression (room : Nat) : Avoids (Expression room) ")" := by
  intro ts b hlexed h
  obtain ⟨t, us, rfl, ht⟩ := opens_expression room ts b h
  refine ⟨t, us, rfl, fun htext => ?_⟩
  have hkind : t.kind = .operator := ((hlexed t (by simp)).is htext (by decide)).2.trans (by decide)
  rcases ht with hlit | hid | hopen
  · simp [Token.isLiteral, hkind] at hlit
  · rw [hkind] at hid
    cases hid
  · exact absurd (htext.symm.trans hopen.1) (by decide)

theorem reads_expression (room : Nat) :
    Reads room (expression room) (Expression room) Expr.Is continuations := by
  induction room with
  | zero => exact fun _ _ _ _ _ _ h => h.elim
  | succ room ih =>
    have hinner : Reader room (expression room) (Expression room) continuations :=
      ⟨moves_expression room, gives_expression room, ih⟩
    have hlogical := reader_logical ⟨hinner, avoids_expression room, by decide, by decide⟩
    exact hlogical.reads.nested

end Parse

end TinyScript
