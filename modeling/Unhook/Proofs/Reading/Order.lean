import Unhook.Proofs.Reading.Progress

/-!
# The order of statements

A statement begins where the cursor is when it is read, whichever rule reads it.
Since every one is read by moving on, the statements of a module begin one after
the other (`pairwise_parseModule?`), and no two of them have the same place.

* `Starts s`: a value whose nodes all begin at an offset;
* `From s`: a parser that answers such values, `Begins s` if the cursor is there.
-/

namespace Unhook.Grammar

open Parse

-- The search goes through every parser within a rule.
set_option synthInstance.maxSize 1000000

/-! ### Where answers begin -/

/-- The nodes in a value begin at an offset. -/
class Starts (s : Nat) {α : Type} [Carries α] (a : α) : Prop where
  all : ∀ n ∈ nodes a, n.span.start = s

namespace Starts

variable {s : Nat} {α : Type} [Carries α]

theorem node_iff {n : Node} : Starts s n ↔ n.span.start = s :=
  ⟨fun h => h.all n (List.mem_singleton.2 rfl), fun h => ⟨fun _ hm => List.mem_singleton.1 hm ▸ h⟩⟩

instance val {a : {a : α // Starts s a}} : Starts s a.1 := a.2

instance node {k : Kind} {stop : Nat} {ps : List Node} : Starts s (Node.mk k ⟨s, stop⟩ ps) :=
  node_iff.2 rfl

instance none : Starts s (none : Option α) := ⟨fun _ hn => absurd hn List.not_mem_nil⟩

theorem some_iff {a : α} : Starts s (some a) ↔ Starts s a := by
  have h : nodes (some a) = nodes a := List.append_nil _
  exact ⟨fun hs => ⟨h ▸ hs.all⟩, fun hs => ⟨h.symm ▸ hs.all⟩⟩

instance some {a : α} [Starts s a] : Starts s (some a) := some_iff.2 ‹_›

instance ite {b : Prop} [Decidable b] {x y : α} [Starts s x] [Starts s y] :
    Starts s (if b then x else y) := by
  split <;> assumption

end Starts

namespace Parse

variable {α β : Type} {s : Nat}

/-- A parser whose answers begin at an offset. -/
class From (s : Nat) [Carries α] (p : Parse α) : Prop where
  starts : ∀ {ctx c a d}, p ctx c = (some a, d) → Starts s a

/-- A parser whose answers begin at an offset if the cursor is there. -/
class Begins (s : Nat) [Carries α] (p : Parse α) : Prop where
  starts : ∀ {ctx c a d}, c.start = s → p ctx c = (some a, d) → Starts s a

namespace From

variable [Carries β] {p : Parse α} {f : α → Parse β} {q q' : Parse β}

/-- Only what is read last is answered. -/
theorem last (hf : ∀ a, From s (f a)) : From s (p >>= f) where
  starts h := by
    obtain ⟨a, e, -, hb⟩ := bind_eq_some.1 h
    exact (hf a).starts hb

theorem answer [Carries α] (hp : From s p) (hf : ∀ a, Starts s a → From s (f a)) :
    From s (p >>= f) where
  starts h := by
    obtain ⟨a, e, ha, hb⟩ := bind_eq_some.1 h
    exact (hf a (hp.starts ha)).starts hb

instance (priority := 900) bindAnswer [Carries α] [hp : From s p]
    [hf : ∀ a : {a : α // Starts s a}, From s (f a.1)] : From s (p >>= f) :=
  answer hp fun a ha => hf ⟨a, ha⟩

instance bindLast [hf : ∀ a, From s (f a)] : From s (p >>= f) := last hf

-- A match on what has been read is followed where its cases are known.
instance bindPair {γ : Type} {p : Parse (γ × α)} {f : γ × α → Parse β} [hf : ∀ x y, From s (f (x, y))] :
    From s (p >>= f) :=
  last fun x => hf x.1 x.2

instance bindOption [Carries α] {p : Parse (Option α)} {f : Option α → Parse β} [hp : From s p]
    [hnone : From s (f none)] [hsome : ∀ a : {a : α // Starts s a}, From s (f (some a.1))] :
    From s (p >>= f) := by
  refine answer hp fun a ha => ?_
  cases a with
  | none => exact hnone
  | some a => exact hsome ⟨a, Starts.some_iff.1 ha⟩

instance pure {b : β} [hb : Starts s b] : From s (pure b : Parse β) where
  starts h := (pure_eq_some.1 h).1 ▸ hb

instance fail : From s (fail : Parse β) where
  starts h := by cases h

instance ite {b : Prop} [Decidable b] [hq : From s q] [hq' : From s q'] :
    From s (if b then q else q') := by
  split <;> assumption

theorem within' {g : Context → Context} (hq : From s q) : From s (within g q) where
  starts h := hq.starts h

instance within {g : Context → Context} [hq : From s q] : From s (within g q) := within' hq

instance node {k : Kind} {ps : List Node} : From s (node k s ps) where
  starts h := by
    obtain ⟨rfl, -⟩ := node_eq_some h
    infer_instance

end From

namespace Begins

variable [Carries β] {p : Parse α} {f : α → Parse β} {q q' : Parse β}

theorem of_from' (hq : From s q) : Begins s q where
  starts _ h := hq.starts h

instance (priority := low) of_from [hq : From s q] : Begins s q := of_from' hq

theorem look (hp : Steady p) (hf : ∀ a, Begins s (f a)) : Begins s (p >>= f) where
  starts hs h := by
    obtain ⟨a, e, ha, hb⟩ := bind_eq_some.1 h
    exact (hf a).starts ((congrArg Lexeme.start (hp.steady ha)).trans hs) hb

instance (priority := 900) bindLook [hp : Steady p] [hf : ∀ a, Begins s (f a)] :
    Begins s (p >>= f) := look hp hf

theorem start {f : Nat → Parse β} (hf : Begins s (f s)) : Begins s (start >>= f) where
  starts hs h := by
    obtain ⟨a, e, ha, hb⟩ := bind_eq_some.1 h
    cases ha
    exact hf.starts hs (hs ▸ hb)

instance bindStart {f : Nat → Parse β} [hf : Begins s (f s)] : Begins s (Parse.start >>= f) :=
  start hf

theorem answer [Carries α] (hp : Begins s p) (hf : ∀ a, Starts s a → From s (f a)) :
    Begins s (p >>= f) where
  starts hs h := by
    obtain ⟨a, e, ha, hb⟩ := bind_eq_some.1 h
    exact (hf a (hp.starts hs ha)).starts hb

instance (priority := 800) bindAnswer [Carries α] [hp : Begins s p]
    [hf : ∀ a : {a : α // Starts s a}, From s (f a.1)] : Begins s (p >>= f) :=
  answer hp fun a ha => hf ⟨a, ha⟩

/-- The cursor is where it was if nothing has been found. -/
theorem unfound [Carries α] {p : Parse (Option α)} {f : Option α → Parse β} (hp : Unmoved p)
    (hp' : Begins s p) (hnone : Begins s (f none)) (hsome : ∀ a, Starts s a → From s (f (some a))) :
    Begins s (p >>= f) where
  starts hs h := by
    obtain ⟨a, e, ha, hb⟩ := bind_eq_some.1 h
    cases a with
    | none => exact hnone.starts ((congrArg Lexeme.start (hp.unmoved ha)).trans hs) hb
    | some a => exact (hsome a (Starts.some_iff.1 (hp'.starts hs ha))).starts hb

instance ite {b : Prop} [Decidable b] [hq : Begins s q] [hq' : Begins s q'] :
    Begins s (if b then q else q') := by
  split <;> assumption

end Begins

end Parse

variable {self : Rules} {s : Nat}

/-! ### Declarations -/

instance : Begins s (block self) := by unfold block; infer_instance

section Declarations

variable {ds : Node} {mods : List Text} {declare : Bool}

instance {kind : VarKind} {words : Nat} :
    From s (variableDeclaration self s kind words declare) := by
  unfold variableDeclaration; infer_instance

instance {declaration nameless async : Bool} :
    From s (functionAt self s declaration nameless async declare) := by
  unfold functionAt; infer_instance

instance {declaration nameless : Bool} : Begins s (function self declaration nameless) := by
  unfold function; infer_instance

instance {form : ClassForm} : From s (classAt self s ds form) := by unfold classAt; infer_instance

instance : From s (classDeclaration self s ds declare) := by
  unfold classDeclaration; infer_instance

instance : From s (typeAlias self s declare) := by unfold typeAlias; infer_instance

instance : From s (interface self s) := by unfold interface; infer_instance

instance : From s (enum self s mods) := by unfold enum; infer_instance

instance : From s (namespaceRule self s mods) := by
  refine .last fun w => ?_
  split
  · infer_instance
  · refine .last fun t => ?_
    split <;> infer_instance

instance : From s (typeDeclaration? self s declare) := by
  refine .last fun b => ?_
  split
  · infer_instance
  · refine .last fun t => ?_
    split <;> infer_instance

instance : From s (importEquals? s) := by unfold importEquals?; infer_instance

instance : From s (importAssignment s) := by unfold importAssignment; infer_instance

instance : From s (declared self s) := by
  refine From.within' (.answer inferInstance fun t ht => ?_)
  cases t with
  | some t =>
    have := Starts.some_iff.1 ht
    infer_instance
  | none =>
    refine .last fun b => ?_
    split
    · infer_instance
    · refine .last fun b => ?_
      split
      · infer_instance
      · refine .last fun k => ?_
        rcases k with _ | ⟨kind, words⟩ <;> infer_instance

instance : Begins s (declaration? self) := by
  refine .start (.unfound inferInstance inferInstance (.look inferInstance fun k => ?_)
    fun t _ => inferInstance)
  cases k with
  | some k => infer_instance
  | none =>
    refine .look inferInstance fun _ => .look inferInstance fun _ => ?_
    split
    · infer_instance
    · refine .look inferInstance fun b => ?_
      split
      · infer_instance
      · refine .look inferInstance fun _ => .look inferInstance fun _ => ?_
        split
        · refine .look inferInstance fun l => ?_
          split <;> infer_instance
        · infer_instance

instance : Begins s importItem := by
  refine .start (.of_from' (.last fun _ => .last fun typeOnly => ?_))
  split
  case' isTrue => refine .last fun _ => ?_
  all_goals
    refine .answer inferInstance fun i hi => ?_
    cases i with
    | some i =>
      have := Starts.some_iff.1 hi
      infer_instance
    | none =>
      refine .last fun t => ?_
      split <;> infer_instance

instance : From s (exportDefault self s ds) := by unfold exportDefault; infer_instance

instance : From s (exportedDeclaration self s ds) := by
  refine .last fun d => .last fun ds => ?_
  split
  · infer_instance
  · refine .last fun _ => .last fun _ => ?_
    split
    · infer_instance
    · refine .last fun d => ?_
      split <;> infer_instance

instance {typeOnly : Bool} : From s (exportNames s typeOnly) := by
  unfold exportNames; infer_instance

instance : From s (exportItem self s ds) := by unfold exportItem; infer_instance

end Declarations

instance : Begins s (decorated self) := by unfold decorated; infer_instance

/-! ### Statements -/

instance {await : Bool} {left : Node} : From s (loopOver self s await left) := by
  unfold loopOver; infer_instance

instance {left : Node} : From s (loopCounting self s left) := by
  unfold loopCounting; infer_instance

instance : Begins s (forLoop self) := by
  refine .start (.of_from' (.last fun _ => .last fun ctx => ?_))
  split
  all_goals
    refine .last fun await => .last fun _ => .last fun b => ?_
    split
    · infer_instance
    · refine .last fun i => .last fun byLet => .last fun l => .last fun k => ?_
      dsimp only
      generalize Option.filter _ k = k
      rcases k with _ | ⟨kind, words⟩
      · refine .last fun _ => .last fun e => .last fun b => ?_
        split
        · infer_instance
        · refine .last fun _ => .last fun _ => .last fun c => ?_
          split <;> infer_instance
      · infer_instance

instance : Begins s (tryStatement self) := by unfold tryStatement; infer_instance

instance : Begins s (expressionStatement self) := by
  refine .start (.of_from' (.last fun e => ?_))
  split <;> infer_instance

instance : Begins s (letStatement self) := by unfold letStatement; infer_instance

instance {n : Text} : Begins s (keywordStatement? self n) := by
  unfold keywordStatement?; infer_instance

instance {n : Text} : Unmoved (keywordStatement? self n) := by
  unfold keywordStatement?; infer_instance

instance : Begins s (plainStatement self) := by
  refine .start (.look inferInstance fun t => ?_)
  split
  · infer_instance
  · split
    · infer_instance
    · split
      · infer_instance
      · split
        case' isTrue =>
          refine .look inferInstance fun next => ?_
          split
          · infer_instance
        all_goals
          exact .unfound inferInstance inferInstance (.unfound inferInstance inferInstance
            inferInstance fun _ _ => inferInstance) fun _ _ => inferInstance
  · infer_instance

theorem markInert_span (n : Node) : (markInert n).span = n.span := by
  unfold markInert
  split <;> rfl

theorem markDeclared_span (n : Node) : (markDeclared n).span = n.span := by
  unfold markDeclared
  split
  · rfl
  · rfl
  · rfl
  · exact markInert_span _

/-- A statement begins where it is read. -/
instance : Begins s (statementRule self) := by
  refine .look inferInstance fun c => .answer inferInstance fun n hn => ?_
  have : Starts s (markDeclared n) :=
    Starts.node_iff.2 (by rw [markDeclared_span, Starts.node_iff.1 hn])
  infer_instance

/-! ### Modules -/

theorem directive?_span {raw : Text} {n d : Node} (h : directive? raw n = some d) :
    d.span = n.span := by
  unfold directive? at h
  split at h
  · split at h
    · cases h
      rfl
    · cases h
  · cases h

/-- Statements that are read one after the other begin so. -/
theorem pairwise_statements [self.Sound] {close : Parse Bool} [Forward close]
    (hmoves : Moves anywhere (self .statement)) (hbegins : ∀ s, Begins s (self .statement))
    {ctx : Context} {c d : Cursor} {ss : List Node} (hc : c.toLexeme.Sound)
    (h : statements self close ctx c = (some ss, d)) :
    ss.Pairwise fun m n => m.span.start < n.span.start := by
  -- What has been read is in order, and it begins before the cursor.
  obtain ⟨e, -, hpairwise, -⟩ := statements_induction (fun items e =>
    (items.Pairwise fun m n => n.span.start < m.span.start) ∧
      ∀ m ∈ items, m.span.start < e.start) hc ⟨.nil, fun _ h => absurd h List.not_mem_nil⟩
    (by
      rintro items c e₁ e n m ⟨hpairwise, hlt⟩ hle he₁ hn hm
      have hspan : m.span.start = e₁.start := by
        have hstart := Starts.node_iff.1 ((hbegins _).starts rfl hn)
        rcases hm with rfl | ⟨raw, hd⟩
        · exact hstart
        · rw [directive?_span hd, hstart]
      have hmove := hmoves.lt he₁ trivial hn trivial
      refine ⟨List.pairwise_cons.2 ⟨fun k hk => ?_, hpairwise⟩, List.forall_mem_cons.2 ⟨?_, ?_⟩⟩
      · have := hlt k hk
        omega
      · omega
      · intro k hk
        have := hlt k hk
        omega) h
  rw [List.pairwise_reverse] at hpairwise
  exact hpairwise

theorem moves_statement (fuel : Nat) : Moves anywhere (rules fuel .statement) := by
  cases fuel with
  | zero => exact MovesFor.fail
  | succ fuel =>
    have := rules_sound fuel
    have := rules_moving fuel
    exact inferInstanceAs (Moves anywhere (statementRule _))

theorem begins_statement (fuel s : Nat) : Begins s (rules fuel .statement) := by
  cases fuel with
  | zero => exact .of_from' From.fail
  | succ fuel => exact inferInstanceAs (Begins s (statementRule _))

/-- The statements of a module begin one after the other. -/
theorem pairwise_parseModule? {typescript : Bool} {source : Text} {items : List Node}
    (h : parseModule? typescript source = some items) :
    items.Pairwise fun m n => m.span.start < n.span.start := by
  simp only [parseModule?, Option.bind_eq_bind, Option.bind_eq_some_iff] at h
  obtain ⟨all, hall, -, -, h⟩ := h
  cases h
  have := rules_sound (4 * (source.length + 2))
  have hstart : (startCursor source).toLexeme.Sound := (Lexeme.sound_next _ _).1
  exact (pairwise_statements (moves_statement _) (begins_statement _) hstart
    (Prod.ext hall rfl)).filter _

end Unhook.Grammar
