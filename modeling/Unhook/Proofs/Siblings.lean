import Mathlib.Data.List.Nodup
import Unhook.Proofs.Reading.Order
import Unhook.Proofs.Resolution

/-!
# What stands next to the component

The component is taken out of its module together with the steps to it: the
default export, and for each name on the way the declarator, the assignment or the
function that the name stands for. What is taken out are whole statements, found
again by their stretches. Since no two statements begin at the same place, these
are the statements of the steps and no others; but the declarators next to a step
go with it.

* `Export.Sibling`, `Export.sites`: what a module consists of, piece by piece;
* `Export.Resolves`: the steps from the default export to the function;
* `Component.ofModule_siblings`: what is left, and when all other pieces are.
-/

namespace Unhook

namespace Export

/-! ### The pieces of a module -/

/-- What can stand next to a component in its module: a declarator, or a whole
    statement that declares no variables. -/
inductive Sibling
  | declarator (d : Node)
  | statement (s : Node)

/-- The pieces of a statement, in order. -/
def siblings : Node → List Sibling
  | .mk (.declaration _ _) _ ds => ds.map .declarator
  | s => [.statement s]

/-- What a piece gives a name. -/
def Sibling.gives? (name : Text) : Sibling → Option Node
  | .declarator d => d.declarator?.bind fun x => if x.1 = name then some x.2 else none
  | .statement s => (values name s).head?

/-- A piece of a module and where it stands. -/
structure Site where
  /-- The number of the statement in the module. -/
  index : Nat
  /-- The number of the piece in the statement. -/
  part : Nat
  statement : Node
  sibling : Sibling

/-- The numbers of a piece. -/
def Site.place (x : Site) : Nat × Nat := (x.index, x.part)

/-- The pieces of a statement with a number. -/
def sitesOf (s : Node × Nat) : List Site :=
  (siblings s.1).zipIdx.map fun x => ⟨s.2, x.2, s.1, x.1⟩

/-- The pieces of a module, in order. -/
def sites (module : List Node) : List Site := module.zipIdx.flatMap sitesOf

theorem mem_sites {module : List Node} {x : Site} :
    x ∈ sites module ↔ module[x.index]? = some x.statement ∧
      (siblings x.statement)[x.part]? = some x.sibling := by
  obtain ⟨i, j, s, p⟩ := x
  simp only [sites, sitesOf, List.mem_flatMap, List.mem_map, Prod.exists, Site.mk.injEq,
    List.mem_zipIdx_iff_getElem?]
  constructor
  · rintro ⟨s, i, hs, p, j, hp, rfl, rfl, rfl, rfl⟩
    exact ⟨hs, hp⟩
  · rintro ⟨hs, hp⟩
    exact ⟨s, i, hs, p, j, hp, rfl, rfl, rfl, rfl⟩

/-- A piece is known by its numbers. -/
theorem eq_of_place_eq {module : List Node} {x y : Site} (hx : x ∈ sites module)
    (hy : y ∈ sites module) (hplace : x.place = y.place) : x = y := by
  obtain ⟨i, j, s, p⟩ := x
  obtain ⟨i', j', s', p'⟩ := y
  obtain ⟨rfl, rfl⟩ : i = i' ∧ j = j' := Prod.ext_iff.1 hplace
  obtain ⟨hs, hp⟩ := mem_sites.1 hx
  obtain ⟨hs', hp'⟩ := mem_sites.1 hy
  obtain rfl : s = s' := Option.some.inj (hs.symm.trans hs')
  obtain rfl : p = p' := Option.some.inj (hp.symm.trans hp')
  rfl

/-- What a statement gives a name is what its pieces give it. -/
theorem values_eq (name : Text) (s : Node) :
    values name s = (siblings s).filterMap (Sibling.gives? name) := by
  unfold siblings
  split
  · next k d span ds =>
    rw [values, List.filterMap_map]
    refine List.filterMap_congr fun d _ => ?_
    cases hd : d.declarator? with
    | none => simp [Sibling.gives?, hd]
    | some x => simp [Sibling.gives?, hd]
  · next hs =>
    have hone : (values name s).length ≤ 1 := by
      unfold values
      split
      · split <;> simp
      · exact (hs _ _ _ _ rfl).elim
      · split
        · split <;> simp
        · simp
      · simp
    rw [List.filterMap_cons, Sibling.gives?]
    rcases hvalues : values name s with _ | ⟨v, vs⟩
    · rfl
    · rw [hvalues] at hone
      obtain rfl : vs = [] := by simpa using hone
      rfl

/-- What a module gives a name is what its pieces give it. -/
theorem definitions_eq (module : List Node) (name : Text) :
    definitions module name = (sites module).filterMap fun x =>
      (x.sibling.gives? name).map fun v => (v, x.statement.span) := by
  have hsites (s : Node × Nat) : ((sitesOf s).filterMap fun x =>
      (x.sibling.gives? name).map fun v => (v, x.statement.span)) =
      (values name s.1).map fun v => (v, s.1.span) := by
    rw [sitesOf, List.filterMap_map, values_eq, List.map_filterMap]
    nth_rewrite 2 [← List.zipIdx_map_fst 0 (siblings s.1)]
    rw [List.filterMap_map]
    rfl
  rw [sites, List.filterMap_flatMap, definitions]
  simp only [hsites]
  nth_rewrite 1 [← List.zipIdx_map_fst 0 module]
  rw [List.flatMap_map]

/-! ### The steps to the function -/

/-- An expression is a function, or it is a name and leads on to the first piece
    that gives the name something that does not come to nothing. The steps are
    these pieces, the innermost first. -/
inductive Leads (module : List Node) : Node → List Site → Prop
  | function {e : Node} (hdirect : isDirect e = true) : Leads module e []
  | name {e v : Node} {n : Text} {before after steps : List Site} {x : Site}
      (hname : named? e = some n) (hsites : sites module = before ++ x :: after)
      (hbefore : ∀ y ∈ before, ∀ w, y.sibling.gives? n = some w → Barren module w)
      (hx : x.sibling.gives? n = some v) (hv : Leads module v steps) : Leads module e (steps ++ [x])

/-- The steps from the first default export of a module to the function that it
    stands for. -/
def Resolves (module : List Node) (steps : List Site) : Prop :=
  ∃ before after x s d ps found, sites module = before ++ x :: after ∧
    (∀ y ∈ before, y.statement.kind ≠ .exportDefault) ∧ x.statement = .mk .exportDefault s (d :: ps) ∧
    Leads module d found ∧ steps = found ++ [x]

theorem isDirect_eq_false_of_named? {e : Node} {n : Text} (h : named? e = some n) :
    isDirect e = false := by
  unfold named? Node.identifier? at h
  split at h
  · next hinner => rw [isDirect, hinner]
  · cases h

section Leads

variable {module : List Node} {e v : Node} {n : Text} {x : Site} {steps steps' : List Site}
  {y : Export}

/-- What a piece gives a name is a definition of the name. -/
theorem mem_definitions (hx : x ∈ sites module) (hv : x.sibling.gives? n = some v) :
    (v, x.statement.span) ∈ definitions module n := by
  rw [definitions_eq]
  exact List.mem_filterMap.2 ⟨x, hx, by rw [hv]; rfl⟩

/-- What leads to a function does not come to nothing. -/
theorem Leads.not_barren (h : Leads module e steps) : ¬Barren module e := by
  induction h with
  | function hdirect =>
    intro hbarren
    cases hbarren with
    | other _ hother => simp [hdirect] at hother
    | name hname _ => simp [isDirect_eq_false_of_named? hname] at hdirect
  | @name e v n before after steps x hname hsites _ hx _ ih =>
    intro hbarren
    cases hbarren with
    | other hnone _ => simp [hname] at hnone
    | name hname' hall =>
      obtain rfl := Option.some.inj (hname.symm.trans hname')
      exact ih (hall _ (mem_definitions (by simp [hsites]) hx))

/-- The steps are pieces of the module. -/
theorem Leads.subset (h : Leads module e steps) : ∀ x ∈ steps, x ∈ sites module := by
  induction h with
  | function => simp
  | name _ hsites _ _ _ ih =>
    refine List.forall_mem_append.2 ⟨ih, fun y hy => ?_⟩
    rw [List.mem_singleton.1 hy, hsites]
    simp

/-- There is one first element with a property. -/
theorem eq_of_first {α : Type} {P : α → Prop} {l b a b' a' : List α} {y z : α}
    (hy : l = b ++ y :: a) (hz : l = b' ++ z :: a') (hb : ∀ w ∈ b, ¬P w) (hb' : ∀ w ∈ b', ¬P w)
    (hP : P y) (hP' : P z) : y = z := by
  classical
  have hfind : l.find? (fun w => decide (P w)) = some y :=
    List.find?_eq_some_iff_append.2 ⟨by simpa, b, a, hy, by simpa using hb⟩
  have hfind' : l.find? (fun w => decide (P w)) = some z :=
    List.find?_eq_some_iff_append.2 ⟨by simpa, b', a', hz, by simpa using hb'⟩
  exact Option.some.inj (hfind.symm.trans hfind')

/-- The steps are determined. -/
theorem Leads.unique (h : Leads module e steps) (h' : Leads module e steps') : steps = steps' := by
  induction h generalizing steps' with
  | function hdirect =>
    cases h' with
    | function => rfl
    | name hname => simp [isDirect_eq_false_of_named? hname] at hdirect
  | @name e v n before after steps x hname hsites hbefore hx hv ih =>
    cases h' with
    | function hdirect => simp [isDirect_eq_false_of_named? hname] at hdirect
    | @name _ v' n' before' after' steps' x' hname' hsites' hbefore' hx' hv' =>
      obtain rfl := Option.some.inj (hname.symm.trans hname')
      obtain rfl : x = x' := by
        refine eq_of_first (P := fun y => ∃ w, y.sibling.gives? n = some w ∧ ¬Barren module w)
          hsites hsites' ?_ ?_ ⟨v, hx, hv.not_barren⟩ ⟨v', hx', hv'.not_barren⟩
        · rintro y hy ⟨w, hw, hbarren⟩
          exact hbarren (hbefore y hy w hw)
        · rintro y hy ⟨w, hw, hbarren⟩
          exact hbarren (hbefore' y hy w hw)
      obtain rfl := Option.some.inj (hx.symm.trans hx')
      rw [ih hv']

/-- The definition that a search among definitions finds is the first that does not
    come to nothing. -/
theorem exists_of_firstOf_eq_found {resolve : Node → Search} {name : Text}
    {ds : List (Node × Span)} (hds : firstOf resolve name ds = .found y) :
    ∃ before value span after z, ds = before ++ (value, span) :: after ∧
      (∀ d ∈ before, resolve d.1 = .nothing) ∧ resolve value = .found z ∧
      y.steps = z.steps ++ [span] := by
  induction ds with
  | nil => cases hds
  | cons d ds ih =>
    obtain ⟨w, s⟩ := d
    rw [firstOf] at hds
    split at hds
    · next z hz =>
      cases hds
      exact ⟨[], w, s, ds, z, rfl, by simp, hz, rfl⟩
    · next hw =>
      obtain ⟨before, value, span, after, z, rfl, hbefore, hvalue, hsteps⟩ := ih hds
      exact ⟨(w, s) :: before, value, span, after, z, rfl,
        List.forall_mem_cons.2 ⟨hw, hbefore⟩, hvalue, hsteps⟩
    · cases hds

/-- A definition is what a piece gives the name, and those before it are what the
    pieces before it give. -/
theorem exists_site {ds : List (Node × Span)} {s : Span} {es : List (Node × Span)}
    (h : definitions module n = ds ++ (v, s) :: es) :
    ∃ before x after, sites module = before ++ x :: after ∧ x.sibling.gives? n = some v ∧
      x.statement.span = s ∧
      ∀ y ∈ before, ∀ w, y.sibling.gives? n = some w → (w, y.statement.span) ∈ ds := by
  rw [definitions_eq, List.filterMap_eq_append_iff] at h
  obtain ⟨before, rest, hsites, hds, hrest⟩ := h
  obtain ⟨more, x, after, rfl, hmore, hx, -⟩ := List.filterMap_eq_cons_iff.1 hrest
  obtain ⟨v', hv', heq⟩ := Option.map_eq_some_iff.1 hx
  obtain ⟨rfl, rfl⟩ := Prod.ext_iff.1 heq
  refine ⟨before ++ more, x, after, by rw [hsites, List.append_assoc], hv', rfl, ?_⟩
  refine List.forall_mem_append.2 ⟨fun y hy w hw => ?_, fun y hy w hw => ?_⟩
  · rw [← hds]
    exact List.mem_filterMap.2 ⟨y, hy, by rw [hw]; rfl⟩
  · have hnone := hmore y hy
    rw [hw] at hnone
    cases hnone

theorem Search.exists_of_orName_eq_found {name : Option Text} {r : Search}
    (h : r.orName name = .found y) : ∃ z, r = .found z ∧ y.steps = z.steps := by
  cases r with
  | found z =>
    cases h
    exact ⟨z, rfl, rfl⟩
  | nothing | endless => cases h

/-- No name is gone through on the way to a function that is there. -/
theorem steps_eq_nil (h : ofExpression (fun _ => .nothing) e = .found y) : y.steps = [] := by
  fun_induction ofExpression (fun _ => .nothing) e generalizing y with
  | case1 _ _ _ _ _ _ _ _ ih => exact ih h
  | case4 op s target value ih =>
    obtain ⟨z, hz, hsteps⟩ := Search.exists_of_orName_eq_found h
    rw [hsteps, ih hz]
  | case5 | case6 =>
    cases h
    rfl
  | case2 | case3 | case7 => cases h

/-- A search finds what the steps lead to if it does so from each name. -/
theorem exists_leads_of_lookup {lookup : Text → Search}
    (hlookup : ∀ n z, lookup n = .found z → ∀ e, named? e = some n →
      ∃ steps, Leads module e steps ∧ z.steps = steps.map (·.statement.span))
    (h : ofExpression lookup e = .found y) :
    ∃ steps, Leads module e steps ∧ y.steps = steps.map (·.statement.span) := by
  rcases ofExpression_cases e with ⟨n, f, hname, hof⟩ | ⟨-, hdirect, z, hof⟩ | ⟨-, -, hof⟩
  · rw [hof] at h
    obtain ⟨z, hz, hsteps⟩ := Search.exists_of_orName_eq_found h
    obtain ⟨steps, hleads, hspans⟩ := hlookup n z hz e hname
    exact ⟨steps, hleads, hsteps.trans hspans⟩
  · rw [hof, ← hof fun _ => .nothing] at h
    exact ⟨[], .function hdirect, steps_eq_nil h⟩
  · rw [hof] at h
    cases h

theorem exists_leads_of_ofName {k : Nat} {z : Export} (h : ofName module k n = .found z)
    (hname : named? e = some n) :
    ∃ steps, Leads module e steps ∧ z.steps = steps.map (·.statement.span) := by
  induction k generalizing e n z with
  | zero => cases h
  | succ k ih =>
    obtain ⟨ds, v, s, es, u, hdefinitions, hbefore, hv, hz⟩ := exists_of_firstOf_eq_found h
    obtain ⟨before, x, after, hsites, hx, rfl, hgiven⟩ := exists_site hdefinitions
    obtain ⟨steps, hleads, hu⟩ := exists_leads_of_lookup (fun m y hy e he => ih hy he) hv
    refine ⟨steps ++ [x], .name hname hsites (fun y hy w hw => ?_) hx hleads, ?_⟩
    · exact barren_of_eq_nothing (hbefore _ (hgiven y hy w hw))
    · rw [hz, hu, List.map_append, List.map_singleton]

/-- A statement that is no declaration is the first of its pieces. -/
theorem exists_site_of_find? {p : Node → Bool} {s : Node} (hs : siblings s = [.statement s])
    (hfind : module.find? p = some s) :
    ∃ before x after, sites module = before ++ x :: after ∧ x.statement = s ∧
      ∀ y ∈ before, p y.statement = false := by
  obtain ⟨-, as, bs, rfl, has⟩ := List.find?_eq_some_iff_append.1 hfind
  refine ⟨as.zipIdx.flatMap sitesOf, ⟨as.length, 0, s, .statement s⟩,
    (bs.zipIdx (as.length + 1)).flatMap sitesOf, ?_, rfl, fun y hy => ?_⟩
  · rw [sites, List.zipIdx_append, List.flatMap_append, List.zipIdx_cons, List.flatMap_cons]
    simp [sitesOf, hs]
  · obtain ⟨hy, -⟩ := mem_sites.1 hy
    have := has _ (List.mem_of_getElem? hy)
    simpa using this

/-- The search from the default export finds what the steps lead to. -/
theorem exists_resolves {k : Nat} (h : resolve module k = .found y) :
    ∃ steps, Resolves module steps ∧ y.steps = steps.map (·.statement.span) := by
  unfold resolve at h
  split at h
  · next kind s d ps hfind =>
    have hkind := List.find?_some hfind
    obtain rfl : kind = .exportDefault := of_decide_eq_true hkind
    split at h
    · next z hz =>
      cases h
      obtain ⟨steps, hleads, hspans⟩ :=
        exists_leads_of_lookup (fun m y hy e he => exists_leads_of_ofName hy he) hz
      obtain ⟨before, x, after, hsites, hx, hbefore⟩ := exists_site_of_find? rfl hfind
      refine ⟨steps ++ [x], ⟨before, after, x, s, d, ps, steps, hsites, fun y hy => ?_, hx, hleads,
        rfl⟩, ?_⟩
      · simpa using hbefore y hy
      · rw [hspans, List.map_append, List.map_singleton, hx]
        rfl
    · next hne =>
      rw [h] at hne
      exact (hne y rfl).elim
  · cases h

theorem Resolves.subset (h : Resolves module steps) : ∀ x ∈ steps, x ∈ sites module := by
  obtain ⟨before, after, x, s, d, ps, found, hsites, -, -, hleads, rfl⟩ := h
  refine List.forall_mem_append.2 ⟨hleads.subset, fun y hy => ?_⟩
  rw [List.mem_singleton.1 hy, hsites]
  simp

/-- The steps from the default export are determined. -/
theorem Resolves.unique (h : Resolves module steps) (h' : Resolves module steps') :
    steps = steps' := by
  obtain ⟨before, after, x, s, d, ps, found, hsites, hbefore, hx, hleads, rfl⟩ := h
  obtain ⟨before', after', x', s', d', ps', found', hsites', hbefore', hx', hleads', rfl⟩ := h'
  obtain rfl : x = x' := eq_of_first (P := fun y => y.statement.kind = .exportDefault)
    hsites hsites' hbefore hbefore' (by rw [hx]; rfl) (by rw [hx']; rfl)
  rw [hx] at hx'
  cases hx'
  rw [hleads.unique hleads']

/-- A step to a function gives a name something that does not come to nothing. -/
theorem Leads.exists_gives (h : Leads module e steps) (hx : x ∈ steps) :
    ∃ n v, x.sibling.gives? n = some v ∧ ¬Barren module v := by
  induction h with
  | function => cases hx
  | @name _ v n _ _ _ y _ _ _ hy hv ih =>
    rcases List.mem_append.1 hx with hx | hx
    · exact ih hx
    · rw [List.mem_singleton.1 hx]
      exact ⟨n, v, hy, hv.not_barren⟩

/-- Whether a piece is a declarator that gives its name neither a function nor a
    name. -/
def Site.isIdle (x : Site) : Bool :=
  x.statement.kind ≠ .exportDefault && match x.sibling with
    | .declarator d => d.declarator?.all fun v => (named? v.2).isNone && !isDirect v.2
    | .statement _ => false

theorem Resolves.not_mem_of_isIdle (h : Resolves module steps) (hx : x.isIdle = true) :
    x ∉ steps := by
  obtain ⟨before, after, y, s, d, ps, found, -, -, hy, hleads, rfl⟩ := h
  obtain ⟨hkind, hidle⟩ := Bool.and_eq_true_iff.1 hx
  intro hmem
  rcases List.mem_append.1 hmem with hmem | hmem
  · obtain ⟨n, v, hv, hbarren⟩ := hleads.exists_gives hmem
    split at hidle
    · next d' hd' =>
      rw [hd', Sibling.gives?] at hv
      obtain ⟨w, hw, hv⟩ := Option.bind_eq_some_iff.1 hv
      rw [hw, Option.all_some, Bool.and_eq_true_iff] at hidle
      split at hv
      · cases hv
        exact hbarren (.other (by simpa using hidle.1) (by simpa using hidle.2))
      · cases hv
    · cases hidle
  · rw [List.mem_singleton.1 hmem, hy] at hkind
    exact of_decide_eq_true hkind rfl

end Leads

/-! ### What is left -/

/-- The statements of a module to which no step belongs. -/
def kept (module : List Node) (steps : List Site) : List Node :=
  (module.zipIdx.filter fun s => steps.all fun x => x.index ≠ s.2).map (·.1)

/-- The pieces of a module that are no steps. -/
def others (module : List Node) (steps : List Site) : List Sibling :=
  ((sites module).filter fun x => steps.all fun y => y.place ≠ x.place).map (·.sibling)

section Kept

variable {module : List Node} {steps : List Site}

/-- Where no two statements have the same stretch, those of the steps are found
    again by theirs. -/
theorem filter_eq_kept (hspans : (module.map (·.span)).Nodup)
    (hsteps : ∀ x ∈ steps, x ∈ sites module) :
    module.filter (fun s => !(steps.map (·.statement.span)).contains s.span) =
      kept module steps := by
  rw [kept]
  nth_rewrite 1 [← List.zipIdx_map_fst 0 module]
  rw [List.filter_map]
  congr 1
  refine List.filter_congr fun s hs => ?_
  rw [List.mem_zipIdx_iff_getElem?] at hs
  have hiff : s.1.span ∈ steps.map (·.statement.span) ↔ ∃ x ∈ steps, x.index = s.2 := by
    rw [List.mem_map]
    refine exists_congr fun x => and_congr_right fun hx => ?_
    obtain ⟨hindex, -⟩ := mem_sites.1 (hsteps x hx)
    constructor
    · intro hspan
      have hlt : x.index < (module.map (·.span)).length := by
        rw [List.length_map]
        exact (List.getElem?_eq_some_iff.1 hindex).1
      exact (List.getElem?_inj hlt hspans).1 (by simp [hindex, hs, hspan])
    · intro heq
      rw [heq, hs] at hindex
      rw [Option.some.inj hindex]
  rw [Function.comp_apply, Bool.eq_iff_iff]
  simpa using not_congr hiff

theorem map_sibling_sitesOf (s : Node × Nat) : (sitesOf s).map (·.sibling) = siblings s.1 := by
  rw [sitesOf, List.map_map]
  exact List.zipIdx_map_fst 0 (siblings s.1)

theorem index_of_mem_sitesOf {s : Node × Nat} {x : Site} (hx : x ∈ sitesOf s) : x.index = s.2 := by
  obtain ⟨p, -, rfl⟩ := List.mem_map.1 hx
  rfl

/-- The pieces of what is kept are those of the statements to which no step
    belongs. -/
theorem flatMap_siblings_kept : (kept module steps).flatMap siblings =
    ((sites module).filter fun x => steps.all fun y => y.index ≠ x.index).map (·.sibling) := by
  rw [kept, sites]
  induction module.zipIdx with
  | nil => rfl
  | cons s l ih =>
    rw [List.flatMap_cons, List.filter_append, List.map_append, ← ih]
    cases hs : steps.all fun x => decide (x.index ≠ s.2) with
    | true =>
      have hall : (sitesOf s).filter (fun x => steps.all fun y => decide (y.index ≠ x.index)) =
          sitesOf s :=
        List.filter_eq_self.2 fun x hx => by rw [index_of_mem_sitesOf hx, hs]
      rw [hall, map_sibling_sitesOf, List.filter_cons, if_pos hs, List.map_cons, List.flatMap_cons]
    | false =>
      have hnone : (sitesOf s).filter (fun x => steps.all fun y => decide (y.index ≠ x.index)) =
          [] :=
        List.filter_eq_nil_iff.2 fun x hx => by rw [index_of_mem_sitesOf hx, hs]; simp
      rw [hnone, List.filter_cons, if_neg (by rw [hs]; simp)]
      rfl

/-- Nothing but pieces that are no steps is kept, and all of them are exactly when
    no piece stands next to a step in a statement. -/
theorem sublist_others (hsteps : ∀ x ∈ steps, x ∈ sites module) :
    ((kept module steps).flatMap siblings).Sublist (others module steps) ∧
      ((kept module steps).flatMap siblings = others module steps ↔
        ∀ x ∈ sites module, (∃ y ∈ steps, y.index = x.index) → x ∈ steps) := by
  have hsub : ((sites module).filter fun x => steps.all fun y => decide (y.index ≠ x.index)).Sublist
      ((sites module).filter fun x => steps.all fun y => decide (y.place ≠ x.place)) := by
    refine List.monotone_filter_right _ fun x hx => ?_
    simp only [List.all_eq_true, decide_eq_true_eq] at hx ⊢
    exact fun y hy hplace => hx y hy (congrArg Prod.fst hplace)
  rw [flatMap_siblings_kept, others]
  refine ⟨hsub.map _, fun heq x hx => ?_, fun h => ?_⟩
  · -- What is next to a step is not kept, so it is a step.
    rintro ⟨y, hy, hindex⟩
    have hfilter := hsub.eq_of_length (by simpa using congrArg List.length heq)
    by_contra hnot
    have hmem : x ∈ (sites module).filter fun x => steps.all fun y => decide (y.place ≠ x.place) := by
      refine List.mem_filter.2 ⟨hx, ?_⟩
      simp only [List.all_eq_true, decide_eq_true_eq]
      intro z hz hplace
      exact hnot (eq_of_place_eq (hsteps z hz) hx hplace ▸ hz)
    rw [← hfilter] at hmem
    exact of_decide_eq_true (List.all_eq_true.1 (List.mem_filter.1 hmem).2 y hy) hindex
  · congr 1
    refine List.filter_congr fun x hx => ?_
    rw [Bool.eq_iff_iff]
    simp only [List.all_eq_true, decide_eq_true_eq]
    constructor
    · exact fun hall y hy hplace => hall y hy (congrArg Prod.fst hplace)
    · exact fun hall y hy hindex => hall x (h x hx ⟨y, hy, hindex⟩) rfl

end Kept

end Export

namespace Component

open Export

variable {options : Options} {source : Text} {length : Nat} {module : List Node} {c : Component}

/-- The statements of a module that has been read have different stretches. -/
theorem nodup_spans (hparse : parse options source = .ok module) : (module.map (·.span)).Nodup := by
  have hpairwise := Grammar.pairwise_parseModule? (parseModule?_of_parse hparse)
  refine List.pairwise_map.2 (hpairwise.imp fun hlt heq => ?_)
  rw [heq] at hlt
  exact Nat.lt_irrefl _ hlt

/-- What is left of a module, without the component, are the statements to which
    none of the steps from the default export to the function belongs, in their
    order. So of the other pieces, none is added and those left are in order; all
    are left exactly when no statement of a step has a piece that is no step. -/
theorem ofModule_siblings (hparse : parse options source = .ok module)
    (hc : ofModule length module = .ok c) :
    ∃ steps, Resolves module steps ∧ (∀ steps', Resolves module steps' → steps' = steps) ∧
      c.module = kept module steps ∧
      (c.module.flatMap siblings).Sublist (others module steps) ∧
      (c.module.flatMap siblings = others module steps ↔
        ∀ x ∈ sites module, (∃ y ∈ steps, y.index = x.index) → x ∈ steps) := by
  obtain ⟨e, he, -, rfl, -⟩ := exists_export_of_ofModule hc
  obtain ⟨steps, hresolves, hspans⟩ := exists_resolves he
  have hkept : (ofExport module e).module = kept module steps := by
    show module.filter _ = _
    rw [hspans]
    exact filter_eq_kept (nodup_spans hparse) hresolves.subset
  rw [hkept]
  exact ⟨steps, hresolves, fun _ h => h.unique hresolves, rfl, sublist_others hresolves.subset⟩

/-- A module in which the component is found through an assignment, a wrapper and a
    constant, with other variables before them. -/
def wrappedSource : Text := "let App; const a = 1, b = 2; const Base = () => <p/>;
  App = memo(Base); export default App;".toList

/-- Of five statements, the three that are steps are taken out. -/
theorem wrapped_siblings : ∃ module c, parse {} wrappedSource = .ok module ∧
    ofModule wrappedSource.byteLength module = .ok c ∧
    (∃ steps, Resolves module steps ∧ (∀ steps', Resolves module steps' → steps' = steps) ∧
      c.module = kept module steps ∧
      (c.module.flatMap siblings).Sublist (others module steps) ∧
      (c.module.flatMap siblings = others module steps ↔
        ∀ x ∈ sites module, (∃ y ∈ steps, y.index = x.index) → x ∈ steps)) ∧
    module.length = 5 ∧ c.module.length = 2 := by
  have hsource : ((parse {} wrappedSource).toOption.bind fun module =>
      (ofModule wrappedSource.byteLength module).toOption.map fun c =>
        decide (module.length = 5 ∧ c.module.length = 2)) = some true := by
    rw [(by apply String.toList_ofList : wrappedSource = _)]
    decide +kernel
  obtain ⟨module, hparse, hsource⟩ := of_toOption_bind hsource
  obtain ⟨c, hc, hlengths⟩ := of_toOption_map hsource
  exact ⟨module, c, hparse, hc, ofModule_siblings hparse hc, of_decide_eq_true hlengths⟩

/-- A component that is declared together with a constant. -/
def sharedSource : Text :=
  "const helper = 1, App = () => <p>\x7bhelper\x7d</p>;\nexport default App;".toList

/-- The constant is no step to the component, and yet nothing is left of the module. -/
theorem shared_declaration_lost : ∃ module c, parse {} sharedSource = .ok module ∧
    ofModule sharedSource.byteLength module = .ok c ∧ c.module = [] ∧
    ∃ x ∈ sites module, ∀ steps, Resolves module steps → x ∉ steps := by
  have hsource : ((parse {} sharedSource).toOption.bind fun module =>
      (ofModule sharedSource.byteLength module).toOption.map fun c =>
        c.module.isEmpty && (sites module).any Site.isIdle) = some true := by
    rw [(by apply String.toList_ofList : sharedSource = _)]
    decide +kernel
  obtain ⟨module, hparse, hsource⟩ := of_toOption_bind hsource
  obtain ⟨c, hc, hboth⟩ := of_toOption_map hsource
  obtain ⟨hempty, hidle⟩ := Bool.and_eq_true_iff.1 hboth
  obtain ⟨x, hx, hidle⟩ := List.any_eq_true.1 hidle
  exact ⟨module, c, hparse, hc, List.isEmpty_iff.1 hempty,
    x, hx, fun steps hsteps => hsteps.not_mem_of_isIdle hidle⟩

end Component

end Unhook
