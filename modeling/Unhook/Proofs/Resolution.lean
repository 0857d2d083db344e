import Mathlib.Combinatorics.Pigeonhole
import Mathlib.Logic.Relation
import Unhook.Compile
import Unhook.Proofs.Ending
import Unhook.Proofs.Reactive
import Unhook.Proofs.Tree

/-!
# When the search for the exported component ends

The search follows names, so nothing gets smaller on its way: a name asks for
another one when the first of its definitions that does not come to nothing is
that other name. A search that goes on is a walk along such questions, and there
are only so many names that have a definition. It goes on forever when the default
export leads into a circle, and only then.

* `Export.Barren`: the expressions that come to nothing;
* `Export.Asks`: what a name stands for is what another name stands for;
* `Export.ofName_eq_endless_iff`: a search that is not over is a walk;
* `Export.resolve_ends_iff`: the search ends unless the export leads into a circle.
-/

namespace Unhook.Export

variable {module : List Node} {ds : List (Node × Span)} {name x : Text} {k : Nat} {e : Node}

/-- What is left of an expression without its wrappers and assignments. -/
def inner : Node → Node
  | .mk (.call ⟨o, false⟩ t) s (callee :: ts :: a :: as) =>
    if callee.calleeName? = some Hook.component.name ∧ a.kind ≠ .spread then inner a
    else .mk (.call ⟨o, false⟩ t) s (callee :: ts :: a :: as)
  | .mk (.assign _) _ [_, value] => inner value
  | n => n

/-- The name that an expression is, but for wrappers and assignments. -/
def named? (e : Node) : Option Text := (inner e).identifier?

/-- Whether an expression is a function, but for wrappers and assignments. -/
def isDirect (e : Node) : Bool :=
  match inner e with
  | .mk (.function _) _ (_ :: _) | .mk (.arrow _) _ _ => true
  | _ => false

/-- An expression that is neither a function nor a name, or a name none of whose
    definitions comes to anything. -/
inductive Barren (module : List Node) : Node → Prop
  | other {e : Node} (hname : named? e = none) (hdirect : isDirect e = false) : Barren module e
  | name {e : Node} {n : Text} (hname : named? e = some n)
      (hall : ∀ d ∈ definitions module n, Barren module d.1) : Barren module e

/-- What a name stands for is what another name stands for: the definitions before
    the one that is this other name come to nothing. -/
def Asks (module : List Node) (x y : Text) : Prop :=
  ∃ before value span after, definitions module x = before ++ (value, span) :: after ∧
    (∀ d ∈ before, Barren module d.1) ∧ named? value = some y

/-- What the default export of a module exports. -/
def exported? (module : List Node) : Option Node :=
  (module.find? (·.kind = .exportDefault)).bind (·.parts.head?)

/-- The default export is a name that leads to a name that leads to itself. -/
def Circular (module : List Node) : Prop :=
  ∃ n x, (exported? module).bind named? = some n ∧
    Relation.ReflTransGen (Asks module) n x ∧ Relation.TransGen (Asks module) x x

/-! ### What one search is like -/

instance (r : Search) : Decidable (r = .endless) :=
  match r with
  | .found _ => isFalse (fun h => by cases h)
  | .nothing => isFalse (fun h => by cases h)
  | .endless => isTrue rfl

@[simp]
theorem Search.orName_eq_endless {name : Option Text} {r : Search} :
    r.orName name = .endless ↔ r = .endless := by
  cases r <;> simp [Search.orName]

@[simp]
theorem Search.orName_eq_nothing {name : Option Text} {r : Search} :
    r.orName name = .nothing ↔ r = .nothing := by
  cases r <;> simp [Search.orName]

@[simp]
theorem Search.orName_none (r : Search) : r.orName none = r := by
  cases r <;> simp [Search.orName]

@[simp]
theorem Search.orName_orName (r : Search) (f g : Option Text) :
    (r.orName f).orName g = r.orName (f.or g) := by
  cases r <;> simp [Search.orName, Option.or_assoc]

/-- An expression leads to a name, is a function, or is neither. -/
theorem ofExpression_cases (e : Node) :
    (∃ n f, named? e = some n ∧ ∀ lookup, ofExpression lookup e = (lookup n).orName f) ∨
      (named? e = none ∧ isDirect e = true ∧ ∃ x, ∀ lookup, ofExpression lookup e = .found x) ∨
        (named? e = none ∧ isDirect e = false ∧ ∀ lookup, ofExpression lookup e = .nothing) := by
  fun_induction ofExpression (fun _ => .nothing) e with
  | case1 o t s callee ts a as h ih =>
    have hinner : inner (.mk (.call ⟨o, false⟩ t) s (callee :: ts :: a :: as)) = inner a := by
      rw [inner, if_pos h]
    have hof (lookup) : ofExpression lookup (.mk (.call ⟨o, false⟩ t) s (callee :: ts :: a :: as)) =
        ofExpression lookup a := by rw [ofExpression, if_pos h]
    simpa only [named?, isDirect, hinner, hof] using ih
  | case2 o t s callee ts a as h =>
    refine .inr (.inr ⟨?_, ?_, fun lookup => ?_⟩)
    · rw [named?, inner, if_neg h, Node.identifier?]
      exact fun n _ _ heq => by cases heq
    · rw [isDirect, inner, if_neg h]
    · rw [ofExpression, if_neg h]
  | case3 n s ps =>
    exact .inl ⟨n, none, rfl, fun lookup => (Search.orName_none _).symm⟩
  | case4 op s target value ih =>
    rcases ih with ⟨n, f, hname, hof⟩ | ⟨hname, hdirect, x, hof⟩ | ⟨hname, hdirect, hof⟩
    · refine .inl ⟨n, f.or target.target?, hname, fun lookup => ?_⟩
      rw [ofExpression, hof, Search.orName_orName]
    · exact .inr (.inl ⟨hname, hdirect, _, fun lookup => by rw [ofExpression, hof]; rfl⟩)
    · exact .inr (.inr ⟨hname, hdirect, fun lookup => by rw [ofExpression, hof]; rfl⟩)
  | case5 form s id ps => exact .inr (.inl ⟨rfl, rfl, _, fun _ => rfl⟩)
  | case6 f s ps => exact .inr (.inl ⟨rfl, rfl, _, fun _ => rfl⟩)
  | case7 e hcall hname hassign hfunction harrow =>
    have hinner : inner e = e := inner.eq_3 e hcall hassign
    refine .inr (.inr ⟨?_, ?_, fun lookup => ?_⟩)
    · rw [named?, hinner, Node.identifier?]
      exact hname
    · rw [isDirect, hinner]
      split
      · next form s id ps => exact (hfunction form s id ps rfl).elim
      · next f s ps => exact (harrow f s ps rfl).elim
      · rfl
    · exact ofExpression.eq_6 lookup e hcall hname hassign hfunction harrow

/-- The search from an expression goes on only within the search from a name. -/
theorem ofExpression_eq_endless_iff {lookup : Text → Search} :
    ofExpression lookup e = .endless ↔ ∃ n, named? e = some n ∧ lookup n = .endless := by
  rcases ofExpression_cases e with ⟨n, f, hname, hof⟩ | ⟨hname, -, x, hof⟩ | ⟨hname, -, hof⟩
  · simp [hname, hof]
  · simp [hname, hof]
  · simp [hname, hof]

/-- A search from an expression that is over does not depend on the searches that
    are not. -/
theorem ofExpression_mono {lookup lookup' : Text → Search}
    (hlookup : ∀ n, lookup n ≠ .endless → lookup' n = lookup n)
    (he : ofExpression lookup e ≠ .endless) : ofExpression lookup' e = ofExpression lookup e := by
  rcases ofExpression_cases e with ⟨n, f, -, hof⟩ | ⟨-, -, x, hof⟩ | ⟨-, -, hof⟩
  · rw [hof, ne_eq, Search.orName_eq_endless] at he
    rw [hof, hof, hlookup n he]
  · rw [hof, hof]
  · rw [hof, hof]

/-- A search among definitions that goes on does so within the first that does not
    come to nothing. -/
theorem exists_of_firstOf_eq_endless {resolve : Node → Search}
    (hds : firstOf resolve name ds = .endless) :
    ∃ before value span after, ds = before ++ (value, span) :: after ∧
      (∀ d ∈ before, resolve d.1 = .nothing) ∧ resolve value = .endless := by
  induction ds with
  | nil => cases hds
  | cons d ds ih =>
    obtain ⟨v, s⟩ := d
    rw [firstOf] at hds
    split at hds
    · cases hds
    · next hv =>
      obtain ⟨before, value, span, after, rfl, hbefore, hvalue⟩ := ih hds
      exact ⟨(v, s) :: before, value, span, after, rfl,
        List.forall_mem_cons.2 ⟨hv, hbefore⟩, hvalue⟩
    · next hv => exact ⟨[], v, s, ds, rfl, by simp, hv⟩

/-- A search among definitions goes on when one of them goes on, and those before it
    find no function. -/
theorem firstOf_eq_endless {resolve : Node → Search} {before after : List (Node × Span)}
    {value : Node} {span : Span} (hbefore : ∀ d ∈ before, ∀ x, resolve d.1 ≠ .found x)
    (hvalue : resolve value = .endless) :
    firstOf resolve name (before ++ (value, span) :: after) = .endless := by
  induction before with
  | nil => rw [List.nil_append, firstOf, hvalue]
  | cons d before ih =>
    obtain ⟨v, s⟩ := d
    rw [List.forall_mem_cons] at hbefore
    rw [List.cons_append, firstOf]
    cases hv : resolve v with
    | found x => exact absurd hv (hbefore.1 x)
    | nothing => exact ih hbefore.2
    | endless => rfl

/-- Definitions of which none is found to be a function are not either. -/
theorem firstOf_ne_found {resolve : Node → Search}
    (hds : ∀ d ∈ ds, ∀ x, resolve d.1 ≠ .found x) (x : Export) : firstOf resolve name ds ≠ .found x := by
  induction ds with
  | nil => exact fun h => by cases h
  | cons d ds ih =>
    obtain ⟨v, s⟩ := d
    rw [List.forall_mem_cons] at hds
    rw [firstOf]
    cases hv : resolve v with
    | found y => exact absurd hv (hds.1 y)
    | nothing => exact ih hds.2
    | endless => exact fun h => by cases h

/-- Definitions come to nothing when each of them does. -/
theorem firstOf_eq_nothing_iff {resolve : Node → Search} :
    firstOf resolve name ds = .nothing ↔ ∀ d ∈ ds, resolve d.1 = .nothing := by
  induction ds with
  | nil => simp [firstOf]
  | cons d ds ih =>
    obtain ⟨v, s⟩ := d
    rw [firstOf, List.forall_mem_cons]
    cases hv : resolve v with
    | found e => simp
    | nothing => simpa using ih
    | endless => simp

/-- A search among definitions that is over does not depend on the searches that
    are not. -/
theorem firstOf_mono {resolve resolve' : Node → Search}
    (hresolve : ∀ v, resolve v ≠ .endless → resolve' v = resolve v)
    (hds : firstOf resolve name ds ≠ .endless) :
    firstOf resolve' name ds = firstOf resolve name ds := by
  induction ds with
  | nil => rfl
  | cons d ds ih =>
    obtain ⟨v, s⟩ := d
    rw [firstOf] at hds
    rw [firstOf, firstOf]
    cases hv : resolve v with
    | found e => rw [hresolve v (by simp [hv]), hv]
    | nothing =>
      rw [hv] at hds
      rw [hresolve v (by simp [hv]), hv]
      exact ih hds
    | endless => simp [hv] at hds

/-- More fuel keeps the outcome of a search that is over. -/
theorem ofName_mono {k l : Nat} (hkl : k ≤ l) :
    ∀ x, ofName module k x ≠ .endless → ofName module l x = ofName module k x := by
  induction k generalizing l with
  | zero => exact fun x hx => absurd rfl hx
  | succ k ih =>
    intro x hx
    obtain ⟨l, rfl⟩ : ∃ m, l = m + 1 := ⟨l - 1, by omega⟩
    exact firstOf_mono (fun v => ofExpression_mono (ih (by omega))) hx

/-! ### Walks -/

/-- An expression of which the search came to nothing is barren. -/
theorem barren_of_eq_nothing
    (he : ofExpression (ofName module k) e = .nothing) : Barren module e := by
  induction k generalizing e with
  | zero =>
    rcases ofExpression_cases e with ⟨n, f, -, hof⟩ | ⟨-, -, x, hof⟩ | ⟨hname, hdirect, -⟩
    · simp [hof, ofName] at he
    · simp [hof] at he
    · exact .other hname hdirect
  | succ k ih =>
    rcases ofExpression_cases e with ⟨n, f, hname, hof⟩ | ⟨-, -, x, hof⟩ | ⟨hname, hdirect, -⟩
    · rw [hof, Search.orName_eq_nothing] at he
      exact .name hname fun d hd => ih (firstOf_eq_nothing_iff.1 he d hd)
    · simp [hof] at he
    · exact .other hname hdirect

/-- The search from a barren expression finds no function. -/
theorem Barren.ne_found (he : Barren module e) :
    ∀ k x, ofExpression (ofName module k) e ≠ .found x := by
  induction he with
  | @other e hname hdirect =>
    intro k x
    rcases ofExpression_cases e with ⟨n, f, hn, -⟩ | ⟨-, hd, -⟩ | ⟨-, -, hof⟩
    · simp [hname] at hn
    · simp [hdirect] at hd
    · simp [hof]
  | @name e n hname _ ih =>
    intro k x
    rcases ofExpression_cases e with ⟨n', f, hn, hof⟩ | ⟨hn, -⟩ | ⟨hn, -⟩
    · obtain rfl : n = n' := by simpa [hname] using hn
      rw [hof]
      cases k with
      | zero => exact fun h => by cases h
      | succ k =>
        cases hr : ofName module (k + 1) n with
        | found y => exact absurd hr (firstOf_ne_found (fun d hd => ih d hd k) y)
        | nothing => exact fun h => by cases h
        | endless => exact fun h => by cases h
    · simp [hname] at hn
    · simp [hname] at hn

/-- A name whose search goes on asks for a name whose search goes on. -/
theorem ofName_succ_eq_endless_iff :
    ofName module (k + 1) x = .endless ↔ ∃ y, Asks module x y ∧ ofName module k y = .endless := by
  constructor
  · intro hx
    obtain ⟨before, value, span, after, hds, hbefore, hvalue⟩ := exists_of_firstOf_eq_endless hx
    obtain ⟨y, hname, hy⟩ := ofExpression_eq_endless_iff.1 hvalue
    exact ⟨y, ⟨before, value, span, after, hds,
      fun d hd => barren_of_eq_nothing (hbefore d hd), hname⟩, hy⟩
  · rintro ⟨y, ⟨before, value, span, after, hds, hbefore, hname⟩, hy⟩
    rw [ofName, hds]
    exact firstOf_eq_endless (fun d hd => (hbefore d hd).ne_found k)
      (ofExpression_eq_endless_iff.2 ⟨y, hname, hy⟩)

/-- A search is not over when it can go on for as many steps as it has fuel. -/
theorem ofName_eq_endless_iff :
    ofName module k x = .endless ↔
      ∃ walk : Nat → Text, walk 0 = x ∧ ∀ i < k, Asks module (walk i) (walk (i + 1)) := by
  induction k generalizing x with
  | zero => exact ⟨fun _ => ⟨fun _ => x, rfl, by simp⟩, fun _ => rfl⟩
  | succ k ih =>
    rw [ofName_succ_eq_endless_iff]
    constructor
    · rintro ⟨y, hxy, hy⟩
      obtain ⟨walk, rfl, hwalk⟩ := ih.1 hy
      refine ⟨fun i => if i = 0 then x else walk (i - 1), rfl, fun i hi => ?_⟩
      cases i with
      | zero => exact hxy
      | succ i => exact hwalk i (by omega)
    · rintro ⟨walk, rfl, hwalk⟩
      exact ⟨walk 1, hwalk 0 (by omega),
        ih.2 ⟨fun i => walk (i + 1), rfl, fun i hi => hwalk (i + 1) (by omega)⟩⟩

/-- A walk leads from each of its names to every later one. -/
theorem transGen_of_walk {walk : Nat → Text}
    (hwalk : ∀ i < k, Asks module (walk i) (walk (i + 1))) {i j : Nat} (hij : i < j) (hj : j ≤ k) :
    Relation.TransGen (Asks module) (walk i) (walk j) := by
  induction j, hij using Nat.le_induction with
  | base => exact .single (hwalk i (by omega))
  | succ j hij ih => exact (ih (by omega)).tail (hwalk j (by omega))

/-- The search from a name that leads to itself goes on forever. -/
theorem ofName_of_circle
    (hx : Relation.TransGen (Asks module) x x) (k : Nat) : ofName module k x = .endless := by
  induction k generalizing x with
  | zero => rfl
  | succ k ih =>
    -- The next name of the circle leads to itself as well.
    obtain ⟨y, hxy, hyx⟩ := Relation.TransGen.head'_iff.1 hx
    exact ofName_succ_eq_endless_iff.2 ⟨y, hxy, ih (.tail' hyx hxy)⟩

/-- The search from a name that leads to a search that goes on forever goes on
    forever. -/
theorem ofName_of_reaches {x y : Text}
    (hxy : Relation.ReflTransGen (Asks module) x y) (hy : ∀ k, ofName module k y = .endless) :
    ∀ k, ofName module k x = .endless := by
  induction hxy using Relation.ReflTransGen.head_induction_on with
  | refl => exact hy
  | head hxz _ ih =>
    intro k
    cases k with
    | zero => rfl
    | succ k => exact ofName_succ_eq_endless_iff.2 ⟨_, hxz, ih k⟩

/-! ### How many names there are -/

/-- The names that a statement gives a value. -/
def givenNames : Node → List Text
  | .mk (.function _) _ (id :: _) => id.binding?.toList
  | .mk (.declaration _ _) _ ds => ds.filterMap fun d => d.declarator?.map (·.1)
  | .mk .expressionStatement _ [e] => (e.assignment?.map (·.1)).toList
  | _ => []

/-- A name that a statement gives something is one of those it gives a value. -/
theorem mem_givenNames {s v : Node} (hv : v ∈ values x s) : x ∈ givenNames s := by
  unfold values at hv
  split at hv
  · next form sp id ps =>
    split at hv
    · next hid => simp [givenNames, hid]
    · cases hv
  · next ds =>
    obtain ⟨d, hd, hdv⟩ := List.mem_filterMap.1 hv
    split at hdv
    · next n value heq =>
      split at hdv
      · next hn => exact List.mem_filterMap.2 ⟨d, hd, by simp [heq, hn]⟩
      · cases hdv
    · cases hdv
  · next e =>
    split at hv
    · next n value heq =>
      split at hv
      · next hn => simp [givenNames, heq, hn]
      · cases hv
    · cases hv
  · cases hv

/-- A statement gives no more names a value than it has parts. -/
theorem length_givenNames_le (s : Node) : (givenNames s).length ≤ s.parts.length := by
  unfold givenNames
  split
  · next id ps => cases id.binding? <;> simp [Node.parts_mk]
  · exact List.length_filterMap_le _ _
  · next e => cases e.assignment? <;> simp [Node.parts_mk]
  · exact Nat.zero_le _

/-- A name that asks for another one is given a value by the module. -/
theorem Asks.mem_givenNames {x y : Text} (hxy : Asks module x y) :
    x ∈ module.flatMap givenNames := by
  obtain ⟨before, value, span, after, hds, -, -⟩ := hxy
  have hmem : (value, span) ∈ definitions module x := by rw [hds]; simp
  obtain ⟨s, hs, hv⟩ := List.mem_flatMap.1 hmem
  obtain ⟨v, hv, -⟩ := List.mem_map.1 hv
  exact List.mem_flatMap.2 ⟨s, hs, Export.mem_givenNames hv⟩

/-- A module gives fewer names a value than it has fuel. -/
theorem length_givenNames_lt_fuel (module : List Node) :
    (module.flatMap givenNames).length < fuel module := by
  have hgeneral (n : Nat) : n + (module.flatMap givenNames).length ≤
      module.foldl (fun n s => n + s.parts.length + 1) n := by
    induction module generalizing n with
    | nil => simp
    | cons s module ih =>
      have hs := length_givenNames_le s
      have hrest := ih (n + s.parts.length + 1)
      rw [List.flatMap_cons, List.length_append, List.foldl_cons]
      omega
  have := hgeneral 1
  rw [fuel]
  omega

/-- A search that uses up its fuel has come to a name that leads to itself: more
    steps than there are names with a definition go through one of them twice. -/
theorem exists_circle (hx : ofName module (fuel module) x = .endless) :
    ∃ y, Relation.ReflTransGen (Asks module) x y ∧ Relation.TransGen (Asks module) y y := by
  obtain ⟨walk, rfl, hwalk⟩ := ofName_eq_endless_iff.1 hx
  have hmaps : ∀ i ∈ Finset.range (fuel module),
      walk i ∈ (module.flatMap givenNames).toFinset := fun i hi =>
    List.mem_toFinset.2 (hwalk i (Finset.mem_range.1 hi)).mem_givenNames
  have hcard : (module.flatMap givenNames).toFinset.card < (Finset.range (fuel module)).card := by
    rw [Finset.card_range]
    exact (List.toFinset_card_le _).trans_lt (length_givenNames_lt_fuel module)
  obtain ⟨i, hi, j, hj, hne, heq⟩ :=
    Finset.exists_ne_map_eq_of_card_lt_of_maps_to hcard hmaps
  wlog hij : i < j generalizing i j
  · exact this j hj i hi hne.symm heq.symm (by omega)
  have hcircle := transGen_of_walk hwalk hij (Finset.mem_range.1 hj).le
  rw [← heq] at hcircle
  refine ⟨walk i, ?_, hcircle⟩
  rcases Nat.eq_zero_or_pos i with rfl | hpos
  · exact .refl
  · exact (transGen_of_walk hwalk hpos (Finset.mem_range.1 hi).le).to_reflTransGen

/-! ### The default export -/

/-- The search from the default export is that from what it exports. -/
theorem resolve_eq_endless_iff :
    resolve module k = .endless ↔
      ∃ n, (exported? module).bind named? = some n ∧ ofName module k n = .endless := by
  unfold resolve exported?
  cases hfind : module.find? (·.kind = .exportDefault) with
  | none => simp
  | some s =>
    obtain ⟨kind, span, ps⟩ := s
    cases ps with
    | nil => simp [Node.parts_mk]
    | cons d ps =>
      simp only [Option.bind_some, Node.parts_mk, List.head?_cons]
      rw [← ofExpression_eq_endless_iff]
      cases ofExpression (ofName module k) d <;> simp

/-- More fuel keeps the outcome of a search from the default export that is over. -/
theorem resolve_mono {k l : Nat} (hkl : k ≤ l)
    (hk : resolve module k ≠ .endless) : resolve module l = resolve module k := by
  unfold resolve at hk ⊢
  split
  · next s d ps heq =>
    simp only [heq] at hk
    have hd : ofExpression (ofName module k) d ≠ .endless := by
      intro h
      simp [h] at hk
    rw [ofExpression_mono (ofName_mono hkl) hd]
  · rfl

/-- The search from a default export that leads into a circle goes on forever. -/
theorem Circular.resolve_eq_endless (hmodule : Circular module) (k : Nat) :
    resolve module k = .endless := by
  obtain ⟨n, x, hn, hnx, hx⟩ := hmodule
  exact resolve_eq_endless_iff.2 ⟨n, hn, ofName_of_reaches hnx (ofName_of_circle hx) k⟩

/-- A search that uses up the fuel of its module leads into a circle. -/
theorem circular_of_resolve
    (hmodule : resolve module (fuel module) = .endless) : Circular module := by
  obtain ⟨n, hn, hends⟩ := resolve_eq_endless_iff.1 hmodule
  obtain ⟨x, hnx, hx⟩ := exists_circle hends
  exact ⟨n, x, hn, hnx, hx⟩

/-- The search for the function that the default export of a module stands for ends
    exactly when the export does not lead to a name that leads to itself. It is then
    over after no more names than the module has statements and parts of statements. -/
theorem resolve_ends_iff (module : List Node) :
    ((∃ k, resolve module k ≠ .endless) ↔ ¬ Circular module) ∧
      ∀ k, fuel module ≤ k → resolve module k = resolve module (fuel module) := by
  refine ⟨⟨?_, fun h => ⟨fuel module, fun hends => h (circular_of_resolve hends)⟩⟩, ?_⟩
  · rintro ⟨k, hk⟩ hmodule
    exact hk (hmodule.resolve_eq_endless k)
  · intro k hk
    by_cases hends : resolve module (fuel module) = .endless
    · rw [hends, (circular_of_resolve hends).resolve_eq_endless]
    · exact resolve_mono hk hends

/-- Two names that are each defined as the other. -/
def circleSource : Text := "const A = B;\nconst B = A;\nexport default A;".toList

/-- The search from a name that is defined as a name defined as the first one goes
    on forever. -/
theorem circle_never_ends :
    ∃ module, parse {} circleSource = .ok module ∧ ∀ k, resolve module k = .endless := by
  have hsource : ((parse {} circleSource).toOption.map fun module =>
      decide (resolve module (fuel module) = .endless)) = some true := by
    rw [(by apply String.toList_ofList : circleSource = _)]
    decide +kernel
  obtain ⟨module, hparse, hends⟩ := of_toOption_map hsource
  have hcircle := circular_of_resolve (of_decide_eq_true hends)
  exact ⟨module, hparse, hcircle.resolve_eq_endless⟩

end Unhook.Export
