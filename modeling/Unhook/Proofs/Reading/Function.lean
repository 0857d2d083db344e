import Unhook.Grammar.Function
import Unhook.Proofs.Reading.Basic

/-!
# Reading functions

The returns that a body is read with come one after the other (`statements_eq_some`).
A function keeps them to itself, so a rule that asks for other rules is calm if
these are, except for statements.
-/

namespace Unhook.Grammar

open Parse

/-- Whether a goal is a statement. -/
@[reducible] def Goal.isStatement : Goal → Bool
  | .statement => true
  | _ => false

/-- Rules that never go back and whose answers have returns among statements
    only. -/
class Rules.Sound (rules : Rules) : Prop where
  calm : ∀ g : Goal, g.isStatement = false → Calm (rules g)
  forward : Forward (rules .statement)
  gives : ∀ r, Gives r (rules .statement)

variable {self : Rules} [hself : self.Sound]

instance {g : Goal} [hg : Off g.isStatement] : Calm (self g) := hself.calm g hg.eq

instance : Forward (self .statement) := hself.forward

instance {r : Span → Prop} : Gives r (self .statement) := hself.gives r

-- The search goes through every parser within a rule.
set_option synthInstance.maxSize 1000000

/-! ### Patterns -/

instance : Calm (typeNote self) := by unfold typeNote; infer_instance

instance : Calm (resultNote self) := by unfold resultNote; infer_instance

instance : Calm (decorators self) := by unfold decorators; infer_instance

instance : Calm (propertyKey self) := by
  refine .bind' inferInstance fun s _ => .bind' inferInstance fun t _ => ?_
  split <;> infer_instance

instance {p : Node} [Within nowhere p] : Calm (withDefault self p) := by
  unfold withDefault; infer_instance

instance : Calm bindingName := by unfold bindingName; infer_instance

instance {s : Nat} {element : Parse Node} [Calm element] : Calm (elements s element) := by
  unfold elements; infer_instance

instance {what : Parse Node} {close : Text} [Calm what] : Calm (restElement what close) := by
  unfold restElement; infer_instance

instance : Calm (arrayPatternElement self) := by unfold arrayPatternElement; infer_instance

instance : Calm (patternProperty self) := by unfold patternProperty; infer_instance

instance : Calm (patternRule self) := by unfold patternRule; infer_instance

instance : Forward modifiersOfParam := by
  refine .loop' fun mods => .bind' inferInstance fun t => ?_
  split <;> infer_instance

instance : Calm (param self) := by unfold param; infer_instance

instance : Calm (thisParam? self) := by unfold thisParam?; infer_instance

instance : Calm (params self) := by unfold params; infer_instance

section Targets

variable {r : Span → Prop} {trailing : List Nat} {n t : Node}

theorem targets?_within {ns ts : List Node}
    (h : ∀ n ∈ ns, ∀ t, target? trailing n = some t → Within r n → Within r t)
    (hts : targets? trailing ns = some ts) (hns : Within r ns) : Within r ts := by
  induction ns generalizing ts with
  | nil =>
    cases hts
    infer_instance
  | cons n ns ih =>
    rw [Within.list_iff, List.forall_mem_cons, ← Within.list_iff] at hns
    simp only [targets?, Option.bind_eq_bind, Option.bind_eq_some_iff] at hts
    obtain ⟨t, ht, ts, hts, heq⟩ := hts
    cases heq
    have := h n List.mem_cons_self t ht hns.1
    have := ih (fun m hm => h m (List.mem_cons_of_mem _ hm)) hts hns.2
    infer_instance

theorem target?_within (h : target? trailing n = some t) (hn : Within r n) : Within r t := by
  induction n generalizing t with
  | mk k s ps ih =>
    have hparts {ts : List Node} (hk : k.encloses = false) (hts : targets? trailing ps = some ts) :
        Within r ts :=
      targets?_within (fun n hn t ht => ih n hn ht) hts
        (Within.list_iff.2 fun p hp => hn.of_mem hk hp)
    unfold target? at h
    split at h <;> rename_i heq
    · cases h
      infer_instance
    · cases heq
      split at h
      · obtain ⟨ts, hts, rfl⟩ := Option.map_eq_some_iff.1 h
        have := hparts rfl hts
        infer_instance
      · cases h
    · cases heq
      split at h
      · obtain ⟨ts, hts, rfl⟩ := Option.map_eq_some_iff.1 h
        have := hparts rfl hts
        infer_instance
      · cases h
    · cases heq
      obtain ⟨t', ht, rfl⟩ := Option.map_eq_some_iff.1 h
      have := ih _ List.mem_cons_self ht (hn.of_mem rfl List.mem_cons_self)
      infer_instance
    · cases heq
      cases h
      exact hn
    · cases heq
      cases h
      have hps : Within r _ := Within.list_iff.2 fun p hp => hn.of_mem rfl hp
      infer_instance
    · cases heq
      cases h
      have hv := hn.of_mem rfl (List.mem_cons_of_mem _ List.mem_cons_self)
      have hd := hv.of_mem rfl (List.mem_cons_of_mem _ List.mem_cons_self)
      infer_instance
    · cases h
      infer_instance
    · cases heq
      obtain ⟨t', ht, rfl⟩ := Option.map_eq_some_iff.1 h
      have hkey := hn.of_mem rfl List.mem_cons_self
      have hv := hn.of_mem rfl (List.mem_cons_of_mem _ List.mem_cons_self)
      have := ih _ (List.mem_cons_of_mem _ List.mem_cons_self) ht hv
      infer_instance
    · cases heq
      split at h
      · cases h
        exact hn
      · cases h

theorem simpleTarget?_within (h : simpleTarget? n = some t) (hn : Within r n) : Within r t := by
  unfold simpleTarget? at h
  split at h
  · cases h
    infer_instance
  · split at h
    · cases h
      exact hn
    · cases h

theorem assignTarget?_within (h : assignTarget? trailing n = some t)
    (hn : Within r n) : Within r t := by
  unfold assignTarget? at h
  split at h
  · exact target?_within h hn
  · exact target?_within h hn
  · exact simpleTarget?_within h hn

end Targets

/-! ### Bodies -/

instance {item : Parse Node} [Calm item] : Calm (angled item) := by unfold angled; infer_instance

instance : Calm (typeParam self) := by
  refine .bind' inferInstance fun s _ => .bind' (.bare' (.loop' fun mods => ?_)) fun mods _ => ?_
  · refine .bind' inferInstance fun t => .bind' inferInstance fun l => ?_
    split <;> infer_instance
  · infer_instance

instance : Calm (typeParams self) := by unfold typeParams; infer_instance

instance : Forward rawHere? := by
  refine .bind' inferInstance fun t => ?_
  split <;> infer_instance

theorem directive?_within {r : Span → Prop} {raw : Text} {s d : Node}
    (h : directive? raw s = some d) : Within r d := by
  unfold directive? at h
  split at h
  · split at h
    · cases h
      infer_instance
    · cases h
  · cases h

section Statements

variable {close : Parse Bool} [hclose : Forward close]

instance : Forward (statements self close) := by
  refine .loop' fun items => .bind' inferInstance fun b => ?_
  split
  · infer_instance
  · refine .bind' inferInstance fun raw => .bind' inferInstance fun s => ?_
    split
    · split <;> infer_instance
    · infer_instance

/-- What reading statements comes to, step by step: `I` holds at the end if it is
    kept by adding a statement, or the directive that it is. -/
theorem statements_induction {ctx : Context} {c d : Cursor} {ss : List Node}
    (I : List Node → Cursor → Prop) (hc : c.toLexeme.Sound) (hnil : I [] c)
    (hcons : ∀ items c e₁ e n m, I items c → c.start ≤ e₁.start → e₁.toLexeme.Sound →
      self .statement ctx e₁ = (some n, e) → m = n ∨ (∃ raw, directive? raw n = some m) →
      I (m :: items) e)
    (h : statements self close ctx c = (some ss, d)) : ∃ e, e.start ≤ d.start ∧ I ss.reverse e := by
  obtain ⟨c', e, hget, h⟩ := bind_eq_some.1 h
  cases hget
  refine iterate_induction (fun items c => c.toLexeme.Sound ∧ I items.2 c)
    (Q := fun ss d => ∃ e, e.start ≤ d.start ∧ I ss.reverse e) ?_ ⟨hc, hnil⟩ h
  rintro ⟨prologue, items⟩ c x e ⟨hc, hi⟩ h
  obtain ⟨b, e₁, hb, h⟩ := bind_eq_some.1 h
  obtain ⟨he₁, hle₁⟩ := hclose.forward hc hb
  cases b with
  | true =>
    cases h
    exact ⟨c, hle₁, by rwa [List.reverse_reverse]⟩
  | false =>
    obtain ⟨raw, e₂, hraw, h⟩ := bind_eq_some.1 h
    obtain ⟨he₂, hle₂⟩ := Forward.forward he₁ hraw
    obtain ⟨n, e₃, hn, h⟩ := bind_eq_some.1 h
    have hcons (m : Node) (hm : m = n ∨ ∃ raw, directive? raw n = some m) :
        e₃.toLexeme.Sound ∧ I (m :: items) e₃ :=
      ⟨(Forward.forward he₂ hn).1, hcons items c e₂ e₃ n m hi (Nat.le_trans hle₁ hle₂) he₂ hn hm⟩
    cases prologue with
    | false =>
      cases h
      exact hcons n (.inl rfl)
    | true =>
      cases raw with
      | none =>
        cases h
        exact hcons n (.inl rfl)
      | some raw =>
        dsimp only at h
        cases hd : directive? raw n with
        | none =>
          rw [hd] at h
          cases h
          exact hcons n (.inl rfl)
        | some d =>
          rw [hd] at h
          cases h
          exact hcons d (.inr ⟨raw, hd⟩)

/-- The returns of statements come one after the other, where the statements
    are. -/
theorem statements_eq_some {ctx : Context} {c d : Cursor} {ss : List Node}
    (hc : c.toLexeme.Sound) (h : statements self close ctx c = (some ss, d)) :
    Node.Apart ss ∧ Within (fun s => ctx.returnAllowed = true ∧ c.start ≤ s.start ∧
      s.start < d.start) ss := by
  -- What has been read is in order, and its returns are behind the cursor.
  obtain ⟨e, hed, happart, -, hall⟩ := statements_induction (fun items e =>
    Node.Apart items.reverse ∧ c.start ≤ e.start ∧ Within (fun s => ctx.returnAllowed = true ∧
      c.start ≤ s.start ∧ s.start < e.start) items) hc ⟨.nil, Nat.le_refl _, inferInstance⟩
    (by
      rintro items c' e₁ e n m ⟨happart, hle, hall⟩ hle₁ he₁ hn hm
      have hle₂ := (Forward.forward he₁ hn).2
      have hm : Within (fun s => ctx.returnAllowed = true ∧ e₁.start ≤ s.start ∧
          s.start < e.start) m := by
        rcases hm with rfl | ⟨raw, hd⟩
        · exact Gives.gives he₁ hn fun hret s hs hse => ⟨hret, hs, hse⟩
        · exact directive?_within hd
      refine ⟨?_, by omega, ?_⟩
      · rw [List.reverse_cons]
        refine List.pairwise_append.2
          ⟨happart, List.pairwise_singleton _ _, fun p hp q hq s hs t ht => ?_⟩
        obtain rfl := List.mem_singleton.1 hq
        have hs := (Within.list_iff.1 hall p (List.mem_reverse.1 hp)).returns s hs
        have ht := hm.returns t ht
        omega
      · have hm := hm.mono fun s hs => (⟨hs.1, by omega, hs.2.2⟩ : ctx.returnAllowed = true ∧
          c.start ≤ s.start ∧ s.start < e.start)
        have hall := hall.mono fun s hs => (⟨hs.1, hs.2.1, by omega⟩ : ctx.returnAllowed = true ∧
          c.start ≤ s.start ∧ s.start < e.start)
        infer_instance) h
  rw [List.reverse_reverse] at happart
  refine ⟨happart, ?_⟩
  rw [← List.reverse_reverse ss]
  have hall := hall.mono fun s hs => (⟨hs.1, hs.2.1, by omega⟩ : ctx.returnAllowed = true ∧
    c.start ≤ s.start ∧ s.start < d.start)
  infer_instance

instance {r : Span → Prop} : Gives r (statements self close) where
  gives hc h hr := (statements_eq_some hc h).2.mono fun s hs => hr hs.1 s hs.2.1 hs.2.2

end Statements

/-! ### Functions -/

instance : Forward (functionBody self) := by unfold functionBody; infer_instance

theorem functionBody_sound {ctx : Context} {c d : Cursor} {b : Node} (hc : c.toLexeme.Sound)
    (h : functionBody self ctx c = (some b, d)) : b.Sound ∧ b.kind = .functionBody := by
  obtain ⟨s, e₁, hs, h⟩ := bind_eq_some.1 h
  obtain ⟨_, e₂, hbrace, h⟩ := bind_eq_some.1 h
  obtain ⟨ss, e₃, hss, h⟩ := bind_eq_some.1 h
  obtain ⟨he₁, -⟩ := Forward.forward hc hs
  obtain ⟨he₂, -⟩ := Forward.forward he₁ hbrace
  obtain ⟨happart, hall⟩ := statements_eq_some he₂ hss
  obtain ⟨rfl, -⟩ := node_eq_some h
  refine ⟨.node (fun p hp => (Within.list_iff.1 hall p hp).sound) (fun h => ?_) (fun h => ?_)
    fun _ => happart, rfl⟩
  · cases h
  · cases h

section Functions

variable {async generator : Bool} {s : Nat}

instance : Forward (functionParts self async generator) := by
  unfold functionParts; infer_instance

/-- The returns of a function are those of its body. -/
theorem functionParts_confined {ctx : Context} {c d : Cursor} {ps : List Node}
    (hc : c.toLexeme.Sound) (h : functionParts self async generator ctx c = (some ps, d)) :
    ∀ p ∈ ps, p.Sound ∧ p.Confined := by
  obtain ⟨ts, e₁, hts, h⟩ := bind_eq_some.1 h
  obtain ⟨he₁, -⟩ := Forward.forward hc hts
  obtain ⟨qs, e₂, hqs, h⟩ := bind_eq_some.1 h
  obtain ⟨he₂, -⟩ := Forward.forward he₁ hqs
  obtain ⟨r, e₃, hr, h⟩ := bind_eq_some.1 h
  obtain ⟨he₃, -⟩ := Forward.forward he₂ hr
  obtain ⟨_, e₄, htyped, h⟩ := bind_eq_some.1 h
  obtain ⟨he₄, -⟩ := Forward.forward he₃ htyped
  obtain ⟨_, e₅, hbrace, h⟩ := bind_eq_some.1 h
  obtain ⟨he₅, -⟩ := Forward.forward he₄ hbrace
  have hts := (Calm.calm hc hts).confined
  have hqs := (Calm.calm he₁ hqs).confined
  have hr := (Calm.calm he₂ hr).confined
  have hparts (b : Node) (hb : b.Sound ∧ b.Confined) :
      ∀ p ∈ [ts, qs, r, b], p.Sound ∧ p.Confined := by
    simp [hts, hqs, hr, hb]
  split at h
  · obtain ⟨_, e₆, -, h⟩ := bind_eq_some.1 h
    obtain ⟨rfl, -⟩ := pure_eq_some.1 h
    exact hparts _ Within.absent.confined
  · obtain ⟨b, e₆, hb, h⟩ := bind_eq_some.1 h
    obtain ⟨rfl, -⟩ := pure_eq_some.1 h
    obtain ⟨hb, hkind⟩ := functionBody_sound he₅ hb
    exact hparts b ⟨hb, .inl hkind⟩

instance {id : Node} {f : FunctionForm} [hid : Within nowhere id] :
    Calm (functionParts self async generator >>= fun parts => node (.function f) s (id :: parts)) :=
  .bindWith inferInstance functionParts_confined fun _ hparts =>
    calm_node_of_confined rfl (List.forall_mem_cons.2 ⟨hid.confined, hparts⟩)

instance {id : Node} {f : FunctionForm} [hid : Within nowhere id] {g : Node → Parse Node}
    [hg : ∀ n : {n : Node // Within nowhere n}, Calm (g n.1)] :
    Calm (functionParts self async generator >>= fun parts =>
      node (.function f) s (id :: parts) >>= g) :=
  .bindWith inferInstance functionParts_confined fun _ hparts =>
    .bind' (calm_node_of_confined rfl (List.forall_mem_cons.2 ⟨hid.confined, hparts⟩))
      fun n hn => hg ⟨n, hn⟩

instance {declaration nameless declare : Bool} :
    Calm (functionAt self s declaration nameless async declare) := by
  unfold functionAt; infer_instance

instance : Forward isAsyncFunction := by unfold isAsyncFunction; infer_instance

instance {declaration nameless : Bool} : Calm (function self declaration nameless) := by
  unfold function; infer_instance

instance : Calm (methodFunction self async generator) := by
  unfold methodFunction; infer_instance

instance : Forward (arrowBody self async) := by unfold arrowBody; infer_instance

/-- The returns of an arrow are those of its body. -/
theorem arrowBody_confined {ctx : Context} {c d : Cursor} {b : Node} (hc : c.toLexeme.Sound)
    (h : arrowBody self async ctx c = (some b, d)) : b.Sound ∧ b.Confined := by
  obtain ⟨braced, e, hbraced, h⟩ := bind_eq_some.1 h
  obtain ⟨he, -⟩ := Forward.forward hc hbraced
  cases braced with
  | true =>
    obtain ⟨hb, hkind⟩ := functionBody_sound he h
    exact ⟨hb, .inl hkind⟩
  | false =>
    exact (Calm.calm (p := within ({ · with await := async, yield := false }) (self .assignment))
      he h).confined

instance {f : ArrowForm} {ts ps r : Node} [hts : Within nowhere ts]
    [hps : Within nowhere ps] [hr : Within nowhere r] :
    Calm (arrowBody self async >>= fun b => node (.arrow f) s [ts, ps, r, b]) :=
  .bindWith inferInstance arrowBody_confined fun b hb => calm_node_of_confined rfl (by
    simp [hts.confined, hps.confined, hr.confined, hb])

end Functions

variable {s : Nat}

/-! ### Arrows -/

instance : Forward arrowSign := by unfold arrowSign; infer_instance

instance {async : Bool} {p : Node} [Within nowhere p] : Calm (simpleArrow self s async p) := by
  unfold simpleArrow; infer_instance

instance : Calm (arrowHead self) := by
  unfold arrowHead; infer_instance

instance {l : Lexeme} : Forward (guessParams l) := by
  refine .bind' inferInstance fun ctx => ?_
  repeat' split
  all_goals infer_instance

instance {l : Lexeme} : Forward (guessHead l) := by
  unfold guessHead
  split <;> infer_instance

instance : Forward guessArrow := by unfold guessArrow; infer_instance

instance : Calm (fullArrow? self) := by
  have (s : Nat) : Forward (modify fun c => { c with noArrows := s :: c.noArrows } : Parse Unit) :=
    forward_modify fun _ => rfl
  refine .bind' inferInstance fun s _ => .bind' inferInstance fun async _ =>
    .bind' inferInstance fun guess _ => ?_
  cases guess with
  | no => infer_instance
  | yes => infer_instance
  | maybe =>
    refine .bind' inferInstance fun c _ => ?_
    split
    · infer_instance
    · refine .bind' inferInstance fun ctx _ => .bind' inferInstance fun found hfound => ?_
      rcases found with _ | head | a
      · infer_instance
      · have : Within nowhere head := ⟨(Within.some_iff.1 hfound).all⟩
        infer_instance
      · have : Within nowhere a := ⟨(Within.some_iff.1 hfound).all⟩
        infer_instance

instance : Calm (arrow? self) := by
  refine .bind' inferInstance fun a ha => ?_
  cases a with
  | some a =>
    have := Within.some_iff.1 ha
    infer_instance
  | none =>
    refine .bind' inferInstance fun b _ => ?_
    split
    · refine .bind' inferInstance fun s _ => .bind' inferInstance fun l _ => ?_
      split <;> infer_instance
    · infer_instance

/-! ### Classes -/

instance : Forward isModifier := by
  refine .bind' inferInstance fun l => .bind' inferInstance fun b => ?_
  repeat' split
  all_goals infer_instance

instance : Forward memberModifiers := by
  refine .loop' fun mods => .bind' inferInstance fun t => ?_
  split <;> infer_instance

instance {mods : List Text} : Calm (indexSignature? self s mods) := by
  unfold indexSignature?; infer_instance

instance : Forward endsName := by
  refine .bind' inferInstance fun l => ?_
  split <;> infer_instance

instance : Forward methodMarks := by
  refine .bind' inferInstance fun t => ?_
  split <;> infer_instance

instance : Calm (classMember self) := by
  refine .bind' inferInstance fun s _ => .bind' inferInstance fun ds _ =>
    .bind' inferInstance fun b _ => .bind' inferInstance fun l _ => ?_
  split
  · have := Calm.within_barred (p := until_ "\x7d" (self .statement)) (g := fun c : Context =>
        { c with await := true, yield := false, returnAllowed := false }) fun _ => rfl
    infer_instance
  · infer_instance

instance : Calm (classBody self) := by unfold classBody; infer_instance

instance : Calm (typeArguments self) := by unfold typeArguments; infer_instance

instance : Calm (typeArguments? self) := by unfold typeArguments?; infer_instance

instance : Calm typeNameRule := by unfold typeNameRule; infer_instance

instance : Calm (sameLineArguments self) := by unfold sameLineArguments; infer_instance

instance : Calm (typeReference self) := by unfold typeReference; infer_instance

instance : Calm (bases self) := by unfold bases; infer_instance

instance {ds : Node} {form : ClassForm} [Within nowhere ds] : Calm (classAt self s ds form) := by
  unfold classAt; infer_instance

instance : Calm (classExpression self) := by unfold classExpression; infer_instance

end Unhook.Grammar
