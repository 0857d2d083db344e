import Unhook.Grammar.Types
import Unhook.Grammar.Markup
import Unhook.Proofs.Reading.Function

/-!
# Reading expressions

Expressions, elements and types have no returns of their own. A few of their
rules move the cursor by characters; they are calm since they move it on from
where they began (`CalmFrom`).
-/

namespace Unhook.Grammar

open Parse

-- The search goes through every parser within a rule.
set_option synthInstance.maxSize 1000000

/-! ### Moving by characters -/

section Moving

variable {α β : Type} [Carries α] [Carries β] {n : Nat}

/-- A parser that does not go back before an offset, if it begins no earlier, and
    whose answers have no returns. -/
structure CalmFrom (n : Nat) (p : Parse α) : Prop where
  calm : ∀ {ctx c a d}, c.toLexeme.Sound → n ≤ c.start → p ctx c = (some a, d) →
    d.toLexeme.Sound ∧ n ≤ d.start ∧ Within nowhere a

namespace CalmFrom

theorem of_calm {p : Parse α} (hp : Calm p) : CalmFrom n p where
  calm hc hn h := by
    obtain ⟨hd, hle⟩ := hp.forward hc h
    exact ⟨hd, Nat.le_trans hn hle, hp.calm hc h⟩

theorem bind {p : Parse α} {f : α → Parse β} (hp : CalmFrom n p)
    (hf : ∀ a, Within nowhere a → CalmFrom n (f a)) : CalmFrom n (p >>= f) where
  calm hc hn h := by
    obtain ⟨a, e, ha, hb⟩ := bind_eq_some.1 h
    obtain ⟨he, hne, hwithin⟩ := hp.calm hc hn ha
    exact (hf a hwithin).calm he hne hb

theorem jump {stop : Nat} {rest : Text} (h : n ≤ stop) : CalmFrom n (jump stop rest) where
  calm hc hn h' := by
    cases h'
    obtain ⟨hd, hle⟩ := Lexeme.sound_next stop rest
    exact ⟨hd, Nat.le_trans h hle, inferInstance⟩

theorem place {offset : Nat} {t : Text} (h : n ≤ offset) : CalmFrom n (place offset t) where
  calm hc hn h' := by
    cases h'
    exact ⟨⟨Nat.le_refl _, fun h => by cases h⟩, h, inferInstance⟩

end CalmFrom

/-- What begins with a look at the cursor may move it to any place after that. -/
theorem calm_get {f : Cursor → Parse α} (hf : ∀ c : Cursor, c.toLexeme.Sound → CalmFrom c.start (f c)) :
    Calm (get >>= f) where
  forward {ctx c a d} hc h := by
    obtain ⟨hd, hle, -⟩ := (hf c hc).calm hc (Nat.le_refl _) h
    exact ⟨hd, hle⟩
  calm {ctx c a d} hc h := ((hf c hc).calm hc (Nat.le_refl _) h).2.2

end Moving

variable {self : Rules} [hself : self.Sound]

/-! ### Literals -/

instance {tagged : Bool} {part : Parse Node} [Calm part] : Calm (templateParts tagged part) := by
  refine .loop' inferInstance fun items hitems => ?_
  obtain ⟨htexts, hparts⟩ := Within.pair_iff.1 hitems
  refine calm_get fun c _ => ?_
  split
  · exact .of_calm inferInstance
  · split
    · exact .of_calm inferInstance
    · refine .bind (.of_calm inferInstance) fun _ _ => .bind (.jump (by omega)) fun _ _ =>
        .of_calm inferInstance

instance {tagged : Bool} : Calm (template self tagged) := by unfold template; infer_instance

instance : Calm regex := by
  refine calm_get fun c _ => ?_
  split
  · split
    · exact .of_calm inferInstance
    · exact .bind (.of_calm inferInstance) fun _ _ => .bind (.of_calm inferInstance) fun _ _ =>
        .bind (.jump (by omega)) fun _ _ => .of_calm inferInstance
  · exact .of_calm inferInstance

/-! ### Primary expressions -/

instance : Calm (argument self) := by unfold argument; infer_instance

instance : Calm (arguments self) := by unfold arguments; infer_instance

instance : Calm (objectProperty self) := by unfold objectProperty; infer_instance

section Marks

variable {r : Span → Prop} {s : Span} {ps : List Node} {e : Node} [he : Within r e]

/-- A function may be of another kind. -/
theorem within_function {k k' : Kind} (h : Within r (Node.mk k s ps)) (hk : k.isFunctional = true)
    (hk' : k'.isFunctional = true) : Within r (Node.mk k' s ps) :=
  .of_confined hk' fun _ hp => ⟨h.sound.of_mem hp, h.sound.confined hk hp⟩

/-- A node that keeps no returns to itself may have another kind. -/
theorem within_of_parts {k k' : Kind} (h : Within r (Node.mk k s ps)) (hk : k.encloses = false)
    (hk' : k'.isReturning = false) : Within r (Node.mk k' s ps) := by
  have : Off k'.isReturning := ⟨hk'⟩
  have : Within r ps := Within.list_iff.2 fun p hp => h.of_mem hk hp
  infer_instance

instance : Within r (remember e) := by
  unfold remember
  split
  · exact within_function he rfl rfl
  · exact within_function he rfl rfl
  · exact he

instance : Within r (markInert e) := by
  unfold markInert
  split
  · exact within_function he rfl rfl
  · exact within_function he rfl rfl
  · exact he

instance : Within r (splitTypeArguments e) := by
  unfold splitTypeArguments
  split
  · have hfirst := he.of_mem rfl List.mem_cons_self
    have ht := he.of_mem rfl (List.mem_cons_of_mem _ List.mem_cons_self)
    infer_instance
  · infer_instance

omit he in
theorem endChain_within (h : Within r e) : Within r (endChain e) := by
  fun_induction endChain e with
  | case1 | case2 | case3 | case4 | case5 => exact within_of_parts h rfl rfl
  | case6 s e t ih =>
    have := ih (h.of_mem rfl List.mem_cons_self)
    have ht := h.of_mem rfl (List.mem_cons_of_mem _ List.mem_cons_self)
    infer_instance
  | case7 => exact h

omit he in
theorem markPure_within (h : Within r e) : Within r (markPure e) := by
  fun_induction markPure e with
  | case1 | case2 => exact within_of_parts h rfl rfl
  | case3 op s e ps ih | case4 s e ps ih =>
    have := ih (h.of_mem rfl List.mem_cons_self)
    have hps : Within r ps :=
      Within.list_iff.2 fun p hp => h.of_mem rfl (List.mem_cons_of_mem _ hp)
    infer_instance
  | case5 => exact h

end Marks

instance : Calm (parenthesized self) := by unfold parenthesized; infer_instance

instance {s : Nat} {phase : Option Text} : Calm (importCall self s phase) := by
  refine .bind' inferInstance fun _ _ => .bind' inferInstance fun args hargs => ?_
  split
  · have := Within.list_iff.1 hargs _ List.mem_cons_self
    infer_instance
  · have := Within.list_iff.1 hargs _ List.mem_cons_self
    have := Within.list_iff.1 hargs _ (List.mem_cons_of_mem _ List.mem_cons_self)
    infer_instance
  · infer_instance

instance : Calm (importExpression self) := by unfold importExpression; infer_instance

instance : Forward followsTypeArguments := by
  refine .bind' inferInstance fun t => ?_
  split <;> infer_instance

instance : Calm (callTypeArguments? self) := by unfold callTypeArguments?; infer_instance

instance : Calm (newExpression self) := by
  refine .bind' inferInstance fun s _ => .bind' inferInstance fun _ _ =>
    .bind' inferInstance fun b _ => ?_
  split
  · infer_instance
  · refine .bind' inferInstance fun e _ => ?_
    have hsplit : Within nowhere (splitTypeArguments e) := inferInstance
    generalize splitTypeArguments e = p at hsplit
    obtain ⟨callee, targs⟩ := p
    obtain ⟨hcallee, htargs⟩ := Within.pair_iff.1 hsplit
    infer_instance

instance : Calm (primary self) := by
  refine .bind' inferInstance fun s _ => .bind' inferInstance fun t _ => ?_
  split <;> infer_instance

section Links

variable {s : Nat} {e : Node} [he : Within nowhere e]

instance {calls chained : Bool} : Calm (link? self s calls chained e) := by
  have hsplit : Within nowhere (splitTypeArguments e) := inferInstance
  refine .bind' inferInstance fun t _ => ?_
  split
  · generalize splitTypeArguments e = p at hsplit
    obtain ⟨tag, targs⟩ := p
    obtain ⟨htag, htargs⟩ := Within.pair_iff.1 hsplit
    infer_instance
  · split
    · refine .bind' inferInstance fun _ _ => .bind' inferInstance fun t _ => ?_
      split <;> infer_instance
    · split
      · infer_instance
      · split
        · generalize splitTypeArguments e = p at hsplit
          obtain ⟨callee, targs⟩ := p
          obtain ⟨hcallee, htargs⟩ := Within.pair_iff.1 hsplit
          infer_instance
        · split
          · refine .bind' inferInstance fun _ _ => .bind' inferInstance fun _ _ =>
              .bind' inferInstance fun t _ => ?_
            split <;> infer_instance
          · infer_instance
  · infer_instance

end Links

instance {calls : Bool} : Calm (links self calls) := by
  refine .bind' inferInstance fun s _ => .bind' inferInstance fun e _ =>
    .loop' inferInstance fun x hx => ?_
  obtain ⟨e, chained⟩ := x
  obtain ⟨he, -⟩ := Within.pair_iff.1 hx
  have := endChain_within he
  infer_instance

/-! ### Operators -/

instance : Forward unaryOp? := by
  refine .bind' inferInstance fun t => ?_
  split <;> infer_instance

instance : Forward updateOp? := by unfold updateOp?; infer_instance

instance {allowed : Text → Bool} : Forward (wordFollows allowed) := by
  refine .bind' inferInstance fun l => ?_
  split <;> infer_instance

instance : Calm (unaryRule self) := by
  refine .bind' inferInstance fun s _ => .bind' inferInstance fun op _ => ?_
  cases op with
  | some op => infer_instance
  | none =>
    refine .bind' inferInstance fun awaits _ => .bind' inferInstance fun ctx _ => ?_
    split
    · infer_instance
    · refine .bind' inferInstance fun increment _ => ?_
      cases increment with
      | some increment =>
        refine .bind' inferInstance fun _ _ => .bind' inferInstance fun e he => ?_
        cases ht : simpleTarget? e with
        | some t =>
          have := simpleTarget?_within ht he
          infer_instance
        | none => infer_instance
      | none =>
        refine .bind' inferInstance fun b _ => ?_
        split
        · infer_instance
        · refine .bind' inferInstance fun _ _ => .bind' inferInstance fun _ _ =>
            .bind' inferInstance fun e he => .bind' inferInstance fun increment _ => ?_
          cases increment with
          | none => infer_instance
          | some increment =>
            cases ht : simpleTarget? e with
            | some t =>
              have := simpleTarget?_within ht he
              infer_instance
            | none => infer_instance

instance : Forward binaryOp? := by
  refine .bind' inferInstance fun t => ?_
  split <;> infer_instance

instance : Calm constType := by unfold constType; infer_instance

section Operators

variable {s level : Nat} {e : Node} [he : Within nowhere e]

instance {parens : Bool} : Calm (binaryRest self s level e parens) := by
  unfold binaryRest; infer_instance

instance : Calm (operandRule self level) := by
  refine .bind' inferInstance fun s _ => .bind' inferInstance fun parens _ =>
    .bind' inferInstance fun t _ => ?_
  split
  · infer_instance
  · refine .bind' inferInstance fun c _ => .bind' inferInstance fun e he => ?_
    have := markPure_within he
    infer_instance

instance : Calm (conditional self s e) := by unfold conditional; infer_instance

instance : Forward assignOp? := by
  refine .bind' inferInstance fun t => ?_
  split <;> infer_instance

instance : Calm (yieldRest self s) := by
  refine .bind' inferInstance fun b _ => ?_
  split
  · infer_instance
  · refine .bind' inferInstance fun b _ => ?_
    split
    · infer_instance
    · refine .bind' inferInstance fun t _ => ?_
      split <;> infer_instance

instance {parens : Bool} {op : Option BinaryOp} : Calm (assignment self s parens op e) := by
  refine .bind' inferInstance fun _ _ => .bind' inferInstance fun c _ => ?_
  dsimp only
  have htarget (t : Node) (ht : (if op.isNone then assignTarget? c.trailing e
      else simpleTarget? e) = some t) : Within nowhere t := by
    split at ht
    · exact assignTarget?_within ht he
    · exact simpleTarget?_within ht he
  generalize (if op.isNone then assignTarget? c.trailing e else simpleTarget? e) = t at htarget ⊢
  cases t with
  | none => infer_instance
  | some t =>
    have := htarget t rfl
    infer_instance

end Operators

variable {literal : Bool} {s : Nat}

instance : Calm (assignmentRule self) := by
  refine .bind' inferInstance fun s _ => .bind' inferInstance fun c _ => ?_
  dsimp only
  have hnoted (a : Node) [ha : Within nowhere a] :
      Within nowhere ((if c.notes.inert then markInert else id) a) := by
    split
    · infer_instance
    · exact ha
  generalize (if c.notes.inert then markInert else id) = noted at hnoted ⊢
  refine .bind' inferInstance fun b _ => ?_
  -- Both branches go on in the same way.
  split
  case' isTrue =>
    refine .bind' inferInstance fun ctx _ => ?_
    split
    · infer_instance
    refine .bind' inferInstance fun _ _ => .bind' inferInstance fun _ _ => ?_
  all_goals
    refine .bind' inferInstance fun a ha => ?_
    cases a with
    | some a =>
      have := Within.some_iff.1 ha
      infer_instance
    | none =>
      refine .bind' inferInstance fun parens _ => .bind' inferInstance fun left _ => ?_
      split <;> infer_instance

instance : Calm (expressionRule self) := by unfold expressionRule; infer_instance

/-! ### Markup -/

instance : Forward tagWord := by
  refine (calm_get fun c hc => ?_).toForward
  split
  · exact .bind (.jump (by have := hc.le; omega)) fun _ _ => .of_calm inferInstance
  · exact .of_calm inferInstance

instance : Calm tagName := by
  have (n : Text) : Off (plainTag n).isReturning := by
    unfold plainTag
    split
    · exact inferInstanceAs (Off false)
    · split <;> exact inferInstanceAs (Off false)
  have (n : Text) : Off (if n = "this" then Kind.tagThis else .tagRef n).isReturning := by
    split <;> exact inferInstanceAs (Off false)
  unfold tagName
  infer_instance

instance : Calm (holeContent self) := by unfold holeContent; infer_instance

instance : Calm (attributeValue self) := by
  refine calm_get fun c _ => ?_
  split
  · exact .of_calm inferInstance
  · exact .of_calm inferInstance
  · refine .bind (.of_calm inferInstance) fun _ _ => ?_
    split
    · exact .bind (.jump (by omega)) fun _ _ => .of_calm inferInstance
    · exact .of_calm inferInstance
  · exact .of_calm inferInstance

instance : Calm (tagAttribute self) := by unfold tagAttribute; infer_instance

instance : Forward placeAfter := by
  refine (calm_get fun c hc => ?_).toForward
  split
  · exact .place (by omega)
  · exact .of_calm inferInstance

instance : Calm (holeChild self s) := by
  unfold holeChild; infer_instance

instance : Calm (children self) := by
  refine .loop' inferInstance fun items hitems => calm_get fun c _ => ?_
  split
  · exact .of_calm inferInstance
  · exact .of_calm inferInstance
  · refine .bind (.of_calm inferInstance) fun _ _ => .bind (.of_calm inferInstance) fun b _ => ?_
    split
    · exact .of_calm inferInstance
    · exact .bind (.place (Nat.le_refl _)) fun _ _ => .of_calm inferInstance
  · refine .bind (.of_calm inferInstance) fun _ _ => ?_
    exact .bind (.place (by omega)) fun _ _ => .of_calm inferInstance

instance {k : Kind} {ps : List Node} [Off k.isReturning] [Within nowhere ps] :
    Calm (tagNode k s ps) := by
  unfold tagNode; infer_instance

instance : Calm (elementRule self) := by unfold elementRule; infer_instance

/-! ### Types -/

instance {α : Type} [Carries α] {allowed : Bool} {p : Parse α} [Calm p] :
    Calm (withConditional allowed p) := by
  unfold withConditional; infer_instance

instance : Forward memberEnd := by unfold memberEnd; infer_instance

instance : Calm (signatureParts self) := by unfold signatureParts; infer_instance

instance : Calm (memberKey self literal) := by
  refine .bind' inferInstance fun c _ => .bind' inferInstance fun x _ => ?_
  split
  split <;> infer_instance

instance : Calm (typeMember self literal) := by unfold typeMember; infer_instance

instance : Calm (typeMembers self literal) := by
  unfold typeMembers; infer_instance

instance {isIt : Parse Bool} {text : Text} [Forward isIt] : Forward (marked isIt text) := by
  unfold marked; infer_instance

instance : Forward isMapped := by unfold isMapped; infer_instance

instance {α : Type} {p : Parse α} [Forward p] : Forward (discard p) := by
  have hdiscard : discard p = p >>= fun _ => pure () := by
    rw [discard, map_const, Function.comp_apply, map_eq_pure_bind]
  rw [hdiscard]
  infer_instance

instance : Calm (mappedType self) := by unfold mappedType; infer_instance

instance : Forward tupleLabel? := by
  refine .bind' inferInstance fun l => .bind' inferInstance fun t => ?_
  split <;> infer_instance

instance : Calm (tupleMember self) := by unfold tupleMember; infer_instance

instance : Calm (literalType self) := by
  refine .bind' inferInstance fun s _ => .bind' inferInstance fun t _ => ?_
  split
  · infer_instance
  · infer_instance
  · infer_instance
  · infer_instance
  · refine .bind' inferInstance fun _ _ => .bind' inferInstance fun _ _ =>
      .bind' inferInstance fun t _ => ?_
    split <;> infer_instance
  · infer_instance
  · infer_instance

instance : Calm modulePath := by unfold modulePath; infer_instance

instance : Calm (importType self) := by unfold importType; infer_instance

instance : Calm (assertion self s) := by unfold assertion; infer_instance

instance : Calm (nullableType self s) := by
  refine .bind' inferInstance fun t _ => ?_
  split <;> infer_instance

instance : Calm (primaryType self) := by
  refine .bind' inferInstance fun s _ => .bind' inferInstance fun t _ => ?_
  split
  · infer_instance
  · refine .bind' inferInstance fun l _ => ?_
    repeat' split
    all_goals infer_instance
  · infer_instance

instance : Calm (suffixedType self) := by unfold suffixedType; infer_instance

instance : Calm (inferredBound self) := by unfold inferredBound; infer_instance

instance : Calm (typeOperandRule self) := by
  refine .bind' inferInstance fun s _ => .bind' inferInstance fun t _ => ?_
  split <;> infer_instance

instance {symbol : Text} {k : Kind} {item : Parse Node} [Off k.isReturning] [Calm item] :
    Calm (typeChain symbol k item) := by
  unfold typeChain; infer_instance

instance : Forward (beginsParams self) := by unfold beginsParams; infer_instance

instance : Calm (functionType? self) := by unfold functionType?; infer_instance

instance : Calm (typeRule self) := by unfold typeRule; infer_instance

instance : Calm (resultTypeRule self) := by
  refine .bind' inferInstance fun s _ => .bind' inferInstance fun l _ =>
    .bind' inferInstance fun n _ => ?_
  split <;> infer_instance

section Declarations

variable {s : Nat} {mods : List Text}

instance {declare : Bool} : Calm (typeAlias self s declare) := by unfold typeAlias; infer_instance

instance : Calm (interface self s) := by unfold interface; infer_instance

instance : Calm (enumMember self) := by
  refine .bind' inferInstance fun s _ => .bind' inferInstance fun x hx => ?_
  obtain ⟨key, computed⟩ := x
  obtain ⟨hkey, -⟩ := Within.pair_iff.1 hx
  dsimp only
  split <;> infer_instance

instance : Calm (enum self s mods) := by unfold enum; infer_instance

instance : Calm namespacePath := by unfold namespacePath; infer_instance

end Declarations

end Unhook.Grammar
