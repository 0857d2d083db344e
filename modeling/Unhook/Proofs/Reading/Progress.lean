import Unhook.Proofs.Reading.Statement

/-!
# Reading on

An expression is read by moving on, and so is a statement: the next one begins
later in the source. A parser moves on if one within it does and none goes back.
Most begin with a token that they look at first, and passing it is moving on only
where there is one; so what is known about the place is part of what is said.

* `MovesFor P Q`: a parser that moves on from every place where `P` holds, if `Q`
  holds of what it answers;
* `Moves P`, `Finds P`: those that do for all answers, and for all but nothing;
* `Rules.Moving`: rules that move on where they read an expression.
-/

namespace Unhook.Grammar

open Parse

-- The search goes through every parser within a rule.
set_option synthInstance.maxSize 1000000

namespace Parse

variable {α β σ : Type} {P : Lexeme → Prop} {Q : α → Prop} {R : β → Prop}

/-- Every place. -/
def anywhere : Lexeme → Prop := fun _ => True

/-- The places where a token is written. -/
def atToken (l : Lexeme) : Prop := l.token.isSolid = true

/-- A parser that moves on from every place where `P` holds, if `Q` holds of what
    it answers. -/
class MovesFor (P : Lexeme → Prop) (Q : α → Prop) (p : Parse α) : Prop where
  lt : ∀ {ctx c a d}, c.toLexeme.Sound → P c.toLexeme → p ctx c = (some a, d) → Q a →
    c.start < d.start

/-- A parser that moves on from every place where `P` holds. -/
abbrev Moves (P : Lexeme → Prop) (p : Parse α) : Prop := MovesFor P (fun _ => True) p

/-- A parser that moves on from every place where `P` holds, if it finds
    something. -/
abbrev Finds (P : Lexeme → Prop) (p : Parse (Option α)) : Prop := MovesFor P (·.isSome = true) p

namespace MovesFor

variable {p q : Parse α} {f : α → Parse β}

/-- What has moved on does not come back. -/
theorem before' (hp : Moves P p) (hp' : Forward p) (hf : ∀ a, Forward (f a)) :
    MovesFor P R (p >>= f) where
  lt hc hP h _ := by
    obtain ⟨a, e, ha, hb⟩ := bind_eq_some.1 h
    obtain ⟨-, hed⟩ := (hf a).forward (hp'.forward hc ha).1 hb
    exact Nat.lt_of_lt_of_le (hp.lt hc hP ha trivial) hed

theorem before [Carries α] (hp : Moves P p) (hp' : Calm p)
    (hf : ∀ a, Within nowhere a → Forward (f a)) : MovesFor P R (p >>= f) where
  lt hc hP h _ := by
    obtain ⟨a, e, ha, hb⟩ := bind_eq_some.1 h
    obtain ⟨-, hed⟩ := (hf a (hp'.calm hc ha)).forward (hp'.forward hc ha).1 hb
    exact Nat.lt_of_lt_of_le (hp.lt hc hP ha trivial) hed

/-- What moves on from every place does so wherever it begins. -/
theorem after [Carries α] (hp : Calm p) (hf : ∀ a, Within nowhere a → MovesFor anywhere R (f a)) :
    MovesFor P R (p >>= f) where
  lt hc _ h hR := by
    obtain ⟨a, e, ha, hb⟩ := bind_eq_some.1 h
    obtain ⟨he, hce⟩ := hp.forward hc ha
    exact Nat.lt_of_le_of_lt hce ((hf a (hp.calm hc ha)).lt he trivial hb hR)

/-- After a look the place is the same. -/
theorem look (hp : Steady p) (hf : ∀ a, MovesFor P R (f a)) : MovesFor P R (p >>= f) where
  lt hc hP h hR := by
    obtain ⟨a, e, ha, hb⟩ := bind_eq_some.1 h
    have he := hp.steady ha
    have hlt := (hf a).lt (he ▸ hc) (he ▸ hP) hb hR
    rwa [he] at hlt

/-- What has been found was read by moving on, and else the rest moves on. -/
theorem found (hp : Forward p) (hfind : MovesFor P Q p) (hyes : ∀ a, Q a → Forward (f a))
    (hno : ∀ a, ¬Q a → MovesFor anywhere R (f a)) : MovesFor P R (p >>= f) where
  lt hc hP h hR := by
    obtain ⟨a, e, ha, hb⟩ := bind_eq_some.1 h
    obtain ⟨he, hce⟩ := hp.forward hc ha
    by_cases hQ : Q a
    · exact Nat.lt_of_lt_of_le (hfind.lt hc hP ha hQ) ((hyes a hQ).forward he hb).2
    · exact Nat.lt_of_le_of_lt hce ((hno a hQ).lt he trivial hb hR)

theorem find {p : Parse (Option α)} {f : Option α → Parse β} (hp : Forward p)
    (hfind : Finds P p) (hsome : ∀ a, Forward (f (some a)))
    (hnone : MovesFor anywhere R (f none)) : MovesFor P R (p >>= f) := by
  refine .found hp hfind (fun a ha => ?_) fun a ha => ?_
  · obtain ⟨a, rfl⟩ := Option.isSome_iff_exists.1 ha
    exact hsome a
  · rwa [Option.not_isSome_iff_eq_none.1 ha]

/-- The place is the same if nothing has been found there. -/
theorem unfound {p : Parse (Option α)} {f : Option α → Parse β} (hp : Unmoved p) (hp' : Forward p)
    (hfind : Finds P p) (hnone : MovesFor P R (f none)) (hsome : ∀ a, Forward (f (some a))) :
    MovesFor P R (p >>= f) where
  lt hc hP h hR := by
    obtain ⟨a, e, ha, hb⟩ := bind_eq_some.1 h
    cases a with
    | none =>
      have he := hp.unmoved ha
      have hlt := hnone.lt (he ▸ hc) (he ▸ hP) hb hR
      rwa [he] at hlt
    | some a =>
      obtain ⟨-, hed⟩ := (hsome a).forward (hp'.forward hc ha).1 hb
      exact Nat.lt_of_lt_of_le (hfind.lt hc hP ha rfl) hed

/-- The token that has been looked at is there. -/
theorem token {f : Token → Parse β} (hsolid : ∀ t, t.isSolid = true → MovesFor atToken R (f t))
    (hf : ∀ t, t.isSolid = false → MovesFor P R (f t)) : MovesFor P R (token >>= f) where
  lt {ctx c b d} hc hP h hR := by
    obtain ⟨t, e, ht, h⟩ := bind_eq_some.1 h
    cases ht
    cases hs : c.token.isSolid with
    | true => exact (hsolid _ hs).lt hc hs h hR
    | false => exact (hf _ hs).lt hc hP h hR

/-- A loop takes a step at least. -/
theorem loop {step : σ → Parse (Step σ α)} {s : σ}
    (hstep : ∀ s, Forward (step s) ∧ Moves P (step s)) : MovesFor P Q (loop s step) where
  lt hc hP h _ := by
    have : ∀ s, Forward (step s) := fun s => (hstep s).1
    obtain ⟨c', e, hget, h⟩ := bind_eq_some.1 h
    cases hget
    obtain ⟨e, h | ⟨m, t, -, ht, h⟩⟩ := iterate_eq_some h
    · exact (hstep s).2.lt hc hP h trivial
    · have hce := (hstep s).2.lt hc hP ht trivial
      exact Nat.lt_of_lt_of_le hce (Forward.forward (Forward.forward hc ht).1 h).2

instance (priority := low) of_anywhere [hp : MovesFor anywhere Q p] : MovesFor P Q p where
  lt hc _ h hQ := hp.lt hc trivial h hQ

instance (priority := low) of_moves [hp : Moves P p] : MovesFor P Q p where
  lt hc hP h _ := hp.lt hc hP h trivial

-- What is only looked at is passed over; then what moves on for sure is looked for.
instance (priority := 900) bindAfter [Carries α] [hp : Calm p]
    [hf : ∀ a : {a : α // Within nowhere a}, MovesFor anywhere R (f a.1)] : MovesFor P R (p >>= f) :=
  after hp fun a ha => hf ⟨a, ha⟩

instance (priority := 950) bindBefore [Carries α] [hp : Moves P p] [hp' : Calm p]
    [hf : ∀ a : {a : α // Within nowhere a}, Forward (f a.1)] : MovesFor P R (p >>= f) :=
  before hp hp' fun a ha => hf ⟨a, ha⟩

instance (priority := 920) bindBefore' [hp : Moves P p] [hp' : Forward p]
    [hf : ∀ a, Forward (f a)] : MovesFor P R (p >>= f) :=
  before' hp hp' hf

instance bindLook [hp : Steady p] [hf : ∀ a, MovesFor P R (f a)] : MovesFor P R (p >>= f) :=
  look hp hf

instance attempt [hp : Moves P p] : Finds P (attempt p) where
  lt hc hP h hQ := by
    rcases attempt_eq_some h with ⟨a, -, h⟩ | ⟨rfl, -⟩
    · exact hp.lt hc hP h trivial
    · cases hQ

instance none : Finds P (pure none : Parse (Option α)) where
  lt _ _ h hQ := by
    cases h
    cases hQ

instance fail : MovesFor P Q (fail : Parse α) where
  lt _ _ h := by cases h

instance ite {b : Prop} [Decidable b] [hp : MovesFor P Q p] [hq : MovesFor P Q q] :
    MovesFor P Q (if b then p else q) := by
  split <;> assumption

instance within {g : Context → Context} [hp : MovesFor P Q p] : MovesFor P Q (within g p) where
  lt hc hP h hQ := hp.lt hc hP h hQ

instance withIn [hp : MovesFor P Q p] : MovesFor P Q (withIn p) :=
  inferInstanceAs (MovesFor P Q (Parse.within _ p))

end MovesFor

/-! ### Reading tokens -/

instance : Steady newline := by unfold newline; infer_instance

instance {b : Bool} : Steady (check b) where
  steady h := by rw [(check_eq_some h).2]

instance {s : Text} : Steady (isPunct s) := by unfold isPunct; infer_instance

instance : Moves atToken advance where
  lt hc htoken h _ := Nat.lt_of_lt_of_le (hc.lt htoken) (advance_eq_some h).2

/-- A parser that leaves the cursor at an offset or after it. -/
structure Reaches (n : Nat) (p : Parse α) : Prop where
  reach : ∀ {ctx c a d}, c.toLexeme.Sound → p ctx c = (some a, d) → d.toLexeme.Sound ∧ n ≤ d.start

namespace Reaches

variable {n : Nat} {p : Parse α} {f : α → Parse β}

theorem before (hp : Reaches n p) (hf : ∀ a, Forward (f a)) : Reaches n (p >>= f) where
  reach hc h := by
    obtain ⟨a, e, ha, hb⟩ := bind_eq_some.1 h
    obtain ⟨he, hle⟩ := hp.reach hc ha
    obtain ⟨hd, hed⟩ := (hf a).forward he hb
    exact ⟨hd, Nat.le_trans hle hed⟩

theorem after (hp : Forward p) (hf : ∀ a, Reaches n (f a)) : Reaches n (p >>= f) where
  reach hc h := by
    obtain ⟨a, e, ha, hb⟩ := bind_eq_some.1 h
    exact (hf a).reach (hp.forward hc ha).1 hb

theorem jump {stop : Nat} {rest : Text} (h : n ≤ stop) : Reaches n (jump stop rest) where
  reach _ h' := by
    cases h'
    obtain ⟨hd, hle⟩ := Lexeme.sound_next stop rest
    exact ⟨hd, Nat.le_trans h hle⟩

theorem fail : Reaches n (fail : Parse α) where
  reach _ h := by cases h

/-- A parser moves on if it gets past where the cursor is. -/
theorem get {f : Cursor → Parse β} (hf : ∀ c, Reaches (c.start + 1) (f c)) :
    Forward (get >>= f) ∧ Moves P (get >>= f) := by
  constructor
  · refine ⟨fun {ctx c b d} hc h => ?_⟩
    obtain ⟨hd, hlt⟩ := (hf c).reach hc h
    exact ⟨hd, Nat.le_of_lt hlt⟩
  · exact ⟨fun {ctx c b d} hc _ h _ => ((hf c).reach hc h).2⟩

end Reaches

variable {s : Text} {p : Parse Bool}

instance : Moves anywhere advanceChar := by
  refine (Reaches.get fun c => ?_).2
  split
  · exact .jump (Nat.add_le_add_left (Char.utf8Size_pos _) _)
  · exact .fail

/-- A parser that moves nothing and is at a token if `Q` holds of what it answers. -/
class Detects (Q : α → Prop) (p : Parse α) : Prop extends Steady p where
  token : ∀ {ctx c a d}, p ctx c = (some a, d) → Q a → atToken c.toLexeme

theorem detects_token {t : Token} (ht : t.isSolid = true) :
    Detects (· = true) (do return (← token) = t) where
  steady := Steady.steady
  token {ctx c a d} h ha := by
    subst ha
    have hc : c.token = t := of_decide_eq_true (Option.some.inj (congrArg Prod.fst h))
    rwa [atToken, hc]

instance : Detects (· = true) (isPunct s) := detects_token rfl

instance : Detects (· = true) (isWord s) := detects_token rfl

theorem token_eq_some {ctx : Context} {c d : Cursor} {t : Token}
    (h : token ctx c = (some t, d)) : t = c.token ∧ d = c := by
  cases h
  exact ⟨rfl, rfl⟩

instance : Steady nameHere? := by
  refine .bind' inferInstance fun t => ?_
  split <;> infer_instance

instance : Detects (·.isSome = true) nameHere? where
  token {ctx c a d} h ha := by
    obtain ⟨t, e, ht, h⟩ := bind_eq_some.1 h
    obtain ⟨ht, rfl⟩ := token_eq_some ht
    cases t with
    | word n plain =>
      rw [atToken, ← ht]
      rfl
    | _ =>
      cases h
      cases ha

theorem MovesFor.detect {p : Parse α} {f : α → Parse β} (hp : Detects Q p)
    (hyes : ∀ a, Q a → MovesFor atToken R (f a)) (hno : ∀ a, ¬Q a → MovesFor P R (f a)) :
    MovesFor P R (p >>= f) where
  lt {ctx c b d} hc hP h hR := by
    obtain ⟨a, e, ha, h⟩ := bind_eq_some.1 h
    have he := hp.steady ha
    have hlt : e.start < d.start := by
      by_cases hQ : Q a
      · exact (hyes a hQ).lt (he ▸ hc) (he ▸ hp.token ha hQ) h hR
      · exact (hno a hQ).lt (he ▸ hc) (he ▸ hP) h hR
    rwa [he] at hlt

theorem MovesFor.detectBool {f : Bool → Parse β} (hp : Detects (· = true) p)
    (htrue : MovesFor atToken R (f true)) (hfalse : MovesFor P R (f false)) :
    MovesFor P R (p >>= f) := by
  refine .detect hp (fun b hb => ?_) fun b hb => ?_
  · rwa [hb]
  · rwa [eq_false_of_ne_true hb]

/-- What is taken is a token. -/
theorem moves_take (hp : Detects (· = true) p) : MovesFor anywhere (· = true) (do
    if ← p then
      advance
      return true
    return false) := by
  refine .detectBool hp (.before inferInstance inferInstance fun _ _ => inferInstance) ⟨?_⟩
  intro ctx c a d _ _ h ha
  cases h
  cases ha

instance : MovesFor anywhere (· = true) (eat s) := moves_take inferInstance

instance : MovesFor anywhere (· = true) (eatWord s) := moves_take inferInstance

/-- What is asked for and not there is refused. -/
theorem moves_check (hp : Forward p) (hp' : MovesFor P (· = true) p) : Moves P (p >>= check) := by
  refine .found hp hp' (fun _ _ => inferInstance) fun b hb => ?_
  rw [eq_false_of_ne_true hb]
  exact MovesFor.fail

instance : Moves anywhere (expect s) := moves_check inferInstance inferInstance

instance : Moves anywhere (expectWord s) := moves_check inferInstance inferInstance

instance : Moves anywhere word := by
  refine .token (fun t ht => ?_) fun t ht => ?_
  · split <;> infer_instance
  · split
    · cases ht
    · infer_instance

instance : Moves anywhere name := by
  refine .detect (Q := (·.isSome = true)) inferInstance (fun n _ => ?_) fun n hn => ?_
  · split <;> infer_instance
  · rw [Option.not_isSome_iff_eq_none] at hn
    rw [hn]
    infer_instance

end Parse

/-- Rules that move on where they read an expression. -/
class Rules.Moving (rules : Rules) : Prop where
  expression : Moves anywhere (rules .expression)
  unary : Moves anywhere (rules .unary)
  functionExpression : Moves anywhere (rules .functionExpression)
  classExpression : Moves anywhere (rules .classExpression)

attribute [instance] Rules.Moving.expression Rules.Moving.unary Rules.Moving.functionExpression
  Rules.Moving.classExpression

variable {self : Rules} [hself : self.Sound] {P : Lexeme → Prop}

/-! ### Functions and classes -/

section Functions

variable {s : Nat} {async : Bool}

instance {declaration nameless declare : Bool} :
    Moves anywhere (functionAt self s declaration nameless async declare) := by
  unfold functionAt; infer_instance

instance {declaration nameless : Bool} : Moves anywhere (function self declaration nameless) := by
  unfold function; infer_instance

instance : Moves anywhere arrowSign := by unfold arrowSign; infer_instance

instance {p : Node} [Within nowhere p] : Moves anywhere (simpleArrow self s async p) := by
  unfold simpleArrow; infer_instance

instance : Moves anywhere (arrowHead self) := by unfold arrowHead; infer_instance

instance {ds : Node} {form : ClassForm} [Within nowhere ds] :
    Moves anywhere (classAt self s ds form) := by
  unfold classAt; infer_instance

instance : Moves anywhere (classExpression self) := by unfold classExpression; infer_instance

end Functions

instance : Finds anywhere (fullArrow? self) := by
  have (s : Nat) : Forward (modify fun c => { c with noArrows := s :: c.noArrows } : Parse Unit) :=
    forward_modify fun _ => rfl
  refine .look inferInstance fun s => .look inferInstance fun async => .after inferInstance
    fun guess _ => ?_
  cases guess with
  | no => infer_instance
  | yes => infer_instance
  | maybe =>
    refine .look inferInstance fun c => ?_
    split
    · infer_instance
    · refine .look inferInstance fun ctx => .find inferInstance inferInstance (fun found => ?_) ?_
      · cases found <;> infer_instance
      · infer_instance

instance : Finds anywhere (arrow? self) := by
  refine .find inferInstance inferInstance inferInstance (.look inferInstance fun b => ?_)
  split
  · refine .look inferInstance fun s => .look inferInstance fun l => ?_
    split <;> infer_instance
  · infer_instance

/-! ### Expressions -/

instance {tagged : Bool} {part : Parse Node} [Calm part] :
    Moves anywhere (templateParts tagged part) := by
  refine .loop fun items => Reaches.get fun c => ?_
  split
  · exact .fail
  · split
    · exact .fail
    · refine .after inferInstance fun _ => .before (.jump ?_) fun _ => inferInstance
      have := Char.utf8Size_pos
      grind

instance {tagged : Bool} : Moves anywhere (template self tagged) := by
  unfold template; infer_instance

instance : Moves anywhere regex := by
  refine (Reaches.get fun c => ?_).2
  split
  · split
    · exact .fail
    · exact .after inferInstance fun _ => .after inferInstance fun _ =>
        .before (.jump (by omega)) fun _ => inferInstance
  · exact .fail

instance : Moves anywhere (parenthesized self) := by unfold parenthesized; infer_instance

instance : Moves anywhere (importExpression self) := by unfold importExpression; infer_instance

instance : Moves anywhere (newExpression self) := by
  refine .look inferInstance fun s => .before inferInstance inferInstance fun _ _ =>
    .bind' inferInstance fun b => ?_
  split
  · infer_instance
  · refine .bind' inferInstance fun e => ?_
    split
    infer_instance

variable [hmoving : self.Moving]

instance : Moves anywhere (primary self) := by
  refine .look inferInstance fun s => .token (fun t _ => ?_) fun t ht => ?_
  · split <;> infer_instance
  · cases t with
    | eof | bad => infer_instance
    | _ => cases ht

instance {calls : Bool} : Moves anywhere (links self calls) := by
  refine .look inferInstance fun s => .before inferInstance inferInstance fun e _ =>
    (Calm.loop' inferInstance fun x hx => ?_).toForward
  obtain ⟨e, chained⟩ := x
  obtain ⟨he, -⟩ := Within.pair_iff.1 hx
  have := endChain_within he
  infer_instance

instance : Moves anywhere (unaryRule self) := by
  refine .look inferInstance fun s => .after inferInstance fun op _ => ?_
  cases op with
  | some op => infer_instance
  | none =>
    refine .look inferInstance fun awaits => .look inferInstance fun ctx => ?_
    split
    · infer_instance
    · refine .after inferInstance fun increment _ => ?_
      cases increment with
      | some increment =>
        refine .after inferInstance fun _ _ => .before inferInstance inferInstance fun e _ => ?_
        split <;> infer_instance
      | none =>
        refine .look inferInstance fun b => ?_
        split
        · infer_instance
        · refine .after inferInstance fun _ _ => .look inferInstance fun _ =>
            .before inferInstance inferInstance fun e _ => .bind' inferInstance fun increment => ?_
          split
          · refine .bind' inferInstance fun b => ?_
            split
            · infer_instance
            · split <;> infer_instance
          · infer_instance

instance {level : Nat} : Moves anywhere (operandRule self level) := by
  refine .look inferInstance fun s => .look inferInstance fun parens => .token (fun t _ => ?_)
    fun t ht => ?_
  · split
    · infer_instance
    · refine .look inferInstance fun c => .before inferInstance inferInstance fun e he => ?_
      have := markPure_within he
      infer_instance
  · split
    · cases ht
    · refine .look inferInstance fun c => .before inferInstance inferInstance fun e he => ?_
      have := markPure_within he
      infer_instance

instance : Moves anywhere (assignmentRule self) := by
  refine .look inferInstance fun s => .look inferInstance fun c => ?_
  dsimp only
  generalize (if c.notes.inert then markInert else id) = noted
  -- Both branches go on in the same way.
  refine .detectBool inferInstance ?_ ?_
  case' refine_1 =>
    refine .look inferInstance fun ctx => ?_
    split
    · infer_instance
    refine .after inferInstance fun _ _ => .look inferInstance fun _ => ?_
  all_goals
    refine .find inferInstance inferInstance inferInstance ?_
    refine .look inferInstance fun parens => .before inferInstance inferInstance fun left _ => ?_
    split <;> infer_instance

instance : Moves anywhere (expressionRule self) := by unfold expressionRule; infer_instance

/-! ### Statements -/

instance : Moves anywhere (block self) := by unfold block; infer_instance

section Declarations

variable {s : Nat} {ds : Node} {mods : List Text} {declare : Bool} [hds : Within nowhere ds]

instance {kind : VarKind} {words : Nat} :
    Moves atToken (variableDeclaration self s kind words declare) := by
  unfold variableDeclaration; infer_instance

instance : Moves anywhere (classDeclaration self s ds declare) := by
  unfold classDeclaration; infer_instance

instance : Moves anywhere (typeAlias self s declare) := by unfold typeAlias; infer_instance

instance : Moves anywhere (interface self s) := by unfold interface; infer_instance

instance : Moves anywhere (enum self s mods) := by unfold enum; infer_instance

instance : Moves anywhere (namespaceRule self s mods) := by
  refine .before inferInstance inferInstance fun w _ => ?_
  split
  · infer_instance
  · refine .bind' inferInstance fun t => ?_
    split <;> infer_instance

instance : Finds atToken (typeDeclaration? self s declare) := by
  refine .look inferInstance fun b => ?_
  split
  · infer_instance
  · refine .look inferInstance fun t => ?_
    split <;> infer_instance

instance : Finds atToken (declaration? self) := by
  refine .look inferInstance fun s => .unfound inferInstance inferInstance inferInstance
    (.look inferInstance fun k => ?_) inferInstance
  cases k with
  | some k => infer_instance
  | none =>
    refine .look inferInstance fun _ => .look inferInstance fun _ => ?_
    split
    · infer_instance
    · refine .look inferInstance fun b => ?_
      split
      · infer_instance
      · refine .look inferInstance fun _ => .look inferInstance fun _ => ?_
        split
        · refine .look inferInstance fun l => ?_
          split <;> infer_instance
        · infer_instance

instance : Moves anywhere importItem := by
  refine .look inferInstance fun s => .before inferInstance inferInstance fun _ _ =>
    .bind' inferInstance fun typeOnly => ?_
  split
  case' isTrue => refine .bind' inferInstance fun _ => ?_
  all_goals
    refine .bind' inferInstance fun i => ?_
    cases i with
    | some i => infer_instance
    | none =>
      refine .bind' inferInstance fun t => ?_
      split <;> infer_instance

instance : Moves anywhere (exportItem self s ds) := by unfold exportItem; infer_instance

end Declarations

instance : Moves anywhere (decorated self) := by
  refine .look inferInstance fun s => .after inferInstance fun ds _ => ?_
  infer_instance

instance : Moves anywhere (forLoop self) := by
  obtain ⟨rest, hrest, heq⟩ := @forLoop_eq self hself
  rw [heq]
  infer_instance

instance : Moves anywhere (tryStatement self) := by unfold tryStatement; infer_instance

instance : Moves anywhere (expressionStatement self) := by
  refine .look inferInstance fun s => .before inferInstance inferInstance fun e _ => ?_
  split <;> infer_instance

instance : Moves atToken (letStatement self) := by unfold letStatement; infer_instance

instance {n : Text} : Finds atToken (keywordStatement? self n) := by
  unfold keywordStatement?; infer_instance

instance : Moves anywhere (plainStatement self) := by
  refine .look inferInstance fun s => .token (fun t _ => ?_) fun t ht => ?_
  · split
    · infer_instance
    · split
      · infer_instance
      · split
        · infer_instance
        · split
          case' isTrue =>
            refine .look inferInstance fun next => ?_
            split
            · infer_instance
          all_goals
            exact .unfound inferInstance inferInstance inferInstance
              (.find inferInstance inferInstance inferInstance inferInstance) inferInstance
    · infer_instance
  · cases t with
    | eof | bad => infer_instance
    | _ => cases ht

instance : Moves anywhere (statementRule self) := by unfold statementRule; infer_instance

/-- Rules of any depth move on where they read an expression. -/
theorem rules_moving (fuel : Nat) : (rules fuel).Moving := by
  induction fuel with
  | zero => exact ⟨MovesFor.fail, MovesFor.fail, MovesFor.fail, MovesFor.fail⟩
  | succ fuel ih =>
    have := rules_sound fuel
    exact ⟨inferInstanceAs (Moves _ (expressionRule _)), inferInstanceAs (Moves _ (unaryRule _)),
      inferInstanceAs (Moves _ (function _ _ _)), inferInstanceAs (Moves _ (classExpression _))⟩

end Unhook.Grammar
