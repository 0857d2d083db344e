import Mathlib.Data.List.Nodup
import Unhook.Proofs.Placement

/-!
# The first misplaced markup

Markup is *misplaced* for one of three reasons, each read off its ancestors
(`Placement.misplaced?`): some ancestor is a loop; or, of the ancestors within
the innermost function, the innermost one that is an `if` body or a branch is
not a branch that leads up to a hole (`Placement.fromHole`); or the innermost
function is not the callback of a list. A component is searched for it in the
order in which it is read (`Placement.precedes`): what is around a node comes
before the node, and the parts of a node come one after the other.

* `Placement.cause?_of`: what the check knows about the surroundings of a node
  is as good as the ancestors of the node;
* `Placement.exists_first_of_check`: a tree that does not pass is reported for
  its first misplaced markup;
* `Component.checkPlacement_first`: where different things have different
  stretches, a component is refused if and only if some markup of its module or
  its body is misplaced, and the report is of the first such markup, for the
  first of the reasons that it has.

The parameters of the component are not searched
(`Component.markup_in_default_accepted`).
-/

namespace Unhook

namespace Placement

/-! ### Reasons -/

/-- Whether it is an `if` body or a branch of a conditional. -/
def Ancestor.isBranch : Ancestor → Bool
  | .ifBody | .branch _ => true
  | _ => false

/-- Whether it is a function. -/
def Ancestor.isFunction : Ancestor → Bool
  | .function _ => true
  | _ => false

/-- The ancestors within the innermost function. -/
def nearby (as : List Ancestor) : List Ancestor := as.takeWhile (!·.isFunction)

/-- Why markup with these ancestors is misplaced: the first reason that there
    is. -/
def misplaced? (as : List Ancestor) : Option Cause :=
  if .loop ∈ as then some .markupInLoop
  else if (nearby as).any (·.isBranch) ∧ fromHole as = false then some .markupInBranch
  else if as.find? (·.isFunction) = some (.function false) then some .markupInFunction
  else none

theorem isSome_branch_of (function : Option Enclosing) (as : List Ancestor) :
    (Surroundings.of function as).branch.isSome = (nearby as).any (·.isBranch) := by
  induction as with
  | nil => rfl
  | cons a as ih =>
    cases a with
    | loop => exact ih
    | ifBody | branch _ | function _ => rfl

/-- The innermost branch is one that markup must not stand in. -/
theorem branch_forbidden_iff (function : Option Enclosing) (as : List Ancestor) :
    ((Surroundings.of function as).branch = some .ofIf ∨
      (Surroundings.of function as).branch = some (.ofConditional false)) ↔
    (nearby as).any (·.isBranch) ∧ fromHole as = false := by
  rw [← isSome_branch_of function, ← Bool.not_eq_true, ← branch_of_iff function]
  rcases (Surroundings.of function as).branch with - | - | inHole
  · simp
  · simp
  · cases inHole <;> simp

theorem enclosing_of_iff {function : Option Enclosing} (hf : function ≠ some .other)
    (as : List Ancestor) : (Surroundings.of function as).enclosing = some .other ↔
      as.find? (·.isFunction) = some (.function false) := by
  induction as with
  | nil => simpa [Surroundings.of] using hf
  | cons a as ih =>
    cases a with
    | loop | ifBody | branch _ => exact ih
    | function ofList =>
      rw [List.find?_cons_of_pos rfl]
      cases ofList <;> simp [Surroundings.of]

/-- In the component and outside of all functions, the surroundings of markup are
    at fault if its ancestors are. -/
theorem cause?_of {function : Option Enclosing} (hf : function ≠ some .other)
    (as : List Ancestor) : (Surroundings.of function as).cause? = misplaced? as := by
  have hloop : (Surroundings.of function as).inLoop = true ↔ .loop ∈ as := by
    rw [← Bool.not_eq_false, inLoop_of_iff, Decidable.not_not]
  rw [Surroundings.cause?, misplaced?]
  simp only [hloop, branch_forbidden_iff, enclosing_of_iff hf]

/-- What has stretches of its own is told apart by them. -/
theorem Landmark.telling_of_nodup {ls : List Landmark}
    (h : (ls.map fun l => (l.span, l.function)).Nodup) : Telling ls := by
  intro a ha b hb hspan hfunction
  have hsame : a = b := List.inj_on_of_nodup_map h ha hb (Prod.ext hspan hfunction)
  rw [hsame]

/-! ### Reading order -/

/-- Whether a place is read before another: it is around it, or in an earlier
    part of something. -/
def precedes : List Nat → List Nat → Bool
  | _, [] => false
  | [], _ :: _ => true
  | i :: p, j :: q => i < j || (i == j && precedes p q)

theorem precedes_nil (p : List Nat) : precedes p [] = false := by
  cases p <;> rfl

theorem precedes_cons_self (i : Nat) (p q : List Nat) :
    precedes (i :: p) (i :: q) = precedes p q := by
  simp [precedes]

theorem precedes_cons_of_lt {i j : Nat} (h : i < j) (p q : List Nat) :
    precedes (j :: p) (i :: q) = false := by
  simp only [precedes, Bool.or_eq_false_iff, decide_eq_false_iff_not, Bool.and_eq_false_iff,
    beq_eq_false_iff_ne]
  exact ⟨by omega, .inl (by omega)⟩

/-- Of two places one is read first. -/
theorem eq_of_not_precedes {p q : List Nat} (h : precedes p q = false)
    (h' : precedes q p = false) : p = q := by
  induction p generalizing q with
  | nil =>
    cases q with
    | nil => rfl
    | cons j q => cases h
  | cons i p ih =>
    cases q with
    | nil => cases h'
    | cons j q =>
      have hij : i = j := by
        simp only [precedes, Bool.or_eq_false_iff, decide_eq_false_iff_not] at h h'
        omega
      subst hij
      rw [precedes_cons_self] at h h'
      rw [ih h h']

/-- The first place that has a problem, among those that have one. -/
def First (P : List Nat → Problem → Prop) (p : List Nat) (e : Problem) : Prop :=
  P p e ∧ ∀ q e', P q e' → precedes q p = false

/-- The problems of some trees, given those of each of them. -/
def Among (ns : List Node) (P : Nat → Node → List Nat → Problem → Prop) :
    List Nat → Problem → Prop
  | [], _ => False
  | i :: p, e => ∃ n, ns[i]? = some n ∧ P i n p e

/-- The first problem is that of the first tree that has one. -/
theorem First.among {ns : List Node} {P : Nat → Node → List Nat → Problem → Prop} {i : Nat}
    {n : Node} {p : List Nat} {e : Problem} (hn : ns[i]? = some n) (h : First (P i n) p e)
    (hbefore : ∀ j < i, ∀ m, ns[j]? = some m → ∀ q e', ¬P j m q e') :
    First (Among ns P) (i :: p) e := by
  refine ⟨⟨n, hn, h.1⟩, fun q e' hq => ?_⟩
  cases q with
  | nil => exact hq.elim
  | cons j q =>
    obtain ⟨m, hm, hq⟩ := hq
    rcases Nat.lt_trichotomy j i with hj | rfl | hj
    · exact absurd hq (hbefore j hj m hm q e')
    · cases hn.symm.trans hm
      rw [precedes_cons_self]
      exact h.2 q e' hq
    · exact precedes_cons_of_lt hj q p

end Placement

open Placement

namespace Node

variable {as : List Ancestor} {st : Stand} {n : Node} {e : Problem}

/-- The markup at a place of a tree is misplaced, where the tree stands as `st` and
    has the ancestors `as`. -/
def Misplaced (st : Stand) (as : List Ancestor) (n : Node) (p : List Nat) (e : Problem) : Prop :=
  ∃ m, n.at? p = some m ∧ m.isMarkup = true ∧
    misplaced? (n.ancestors st as p) = some e.cause ∧ e.span = m.span

theorem misplaced_nil :
    n.Misplaced st as [] e ↔
      n.isMarkup = true ∧ misplaced? as = some e.cause ∧ e.span = n.span := by
  simp [Misplaced, ancestors]

theorem misplaced_cons {i : Nat} {p : List Nat}
    : n.Misplaced st as (i :: p) e ↔
      Among n.parts (fun i m => m.Misplaced (n.stand i) ((n.ancestor? st i).toList ++ as))
        (i :: p) e := by
  rw [Misplaced, Among, at?_cons, ancestors]
  cases hm : n.parts[i]? with
  | none => simp
  | some m => simp [Misplaced]

/-- A tree is searched from its root. -/
theorem first_of_parts {p : List Nat} (hself : n.isMarkup = true → misplaced? as = none)
    (h : First (Among n.parts fun i m =>
      m.Misplaced (n.stand i) ((n.ancestor? st i).toList ++ as)) p e) :
    First (n.Misplaced st as) p e := by
  cases p with
  | nil => exact h.1.elim
  | cons i p =>
    refine ⟨misplaced_cons.2 h.1, fun q e' hq => ?_⟩
    cases q with
    | nil =>
      obtain ⟨hmarkup, hcause, -⟩ := misplaced_nil.1 hq
      rw [hself hmarkup] at hcause
      cases hcause
    | cons j q => exact h.2 _ _ (misplaced_cons.1 hq)

/-- Misplaced markup is what the placed tree does not have. -/
theorem placed_iff_not_misplaced {function : Option Enclosing} (hf : function ≠ some .other)
    : n.Placed function st as ↔ ∀ p e, ¬n.Misplaced st as p e := by
  constructor
  · rintro h p e ⟨m, hm, hmarkup, hcause, -⟩
    have hnone := h p m hm hmarkup
    rw [cause?_of hf, hcause] at hnone
    cases hnone
  · intro h p m hm hmarkup
    rw [cause?_of hf]
    cases hcause : misplaced? (n.ancestors st as p) with
    | none => rfl
    | some r => exact absurd ⟨m, hm, hmarkup, hcause, rfl⟩ (h p ⟨r, m.span⟩)

end Node

namespace Placement

variable {ls : List Landmark} {function : Option Enclosing} {as : List Ancestor}

/-- If trees do not pass one after the other, then one of them does not, and all
    before it do. -/
theorem exists_of_checkParts_error {f : Nat → Surroundings} {ns : List Node} {seen : Seen}
    {e : Problem} (hwithin : seen.Within ls)
    (hkeeps : ∀ i n, ns[i]? = some n → ∀ s t, check (f i) n s = .ok t →
      (s.Within ls → t.Within ls) ∧ s.Grows t)
    (h : checkParts f ns seen = .error e) :
    ∃ i n s, ns[i]? = some n ∧ s.Within ls ∧ seen.Grows s ∧ check (f i) n s = .error e ∧
      ∀ j < i, ∀ m, ns[j]? = some m →
        ∃ u t, u.Within ls ∧ seen.Grows u ∧ check (f j) m u = .ok t := by
  induction ns generalizing f seen with
  | nil => cases h
  | cons n ns ih =>
    rw [checkParts] at h
    cases hn : check (f 0) n seen with
    | error e' =>
      rw [hn] at h
      cases h
      exact ⟨0, n, seen, rfl, hwithin, .refl _, hn, fun j hj => absurd hj (Nat.not_lt_zero j)⟩
    | ok s =>
      rw [hn] at h
      obtain ⟨hw, hgrows⟩ := hkeeps 0 n rfl _ _ hn
      obtain ⟨i, m, u, hm, hu, hgrows', herror, hbefore⟩ :=
        ih (f := fun i => f (i + 1)) (hw hwithin) (fun i => hkeeps (i + 1)) h
      refine ⟨i + 1, m, u, hm, hu, hgrows.trans hgrows', herror, fun j hj l hl => ?_⟩
      cases j with
      | zero =>
        cases hl
        exact ⟨seen, s, hwithin, .refl _, hn⟩
      | succ j =>
        obtain ⟨v, t, hv, hgrows'', ht⟩ := hbefore j (Nat.lt_of_succ_lt_succ hj) l hl
        exact ⟨v, t, hv, hgrows.trans hgrows'', ht⟩

/-- A tree that does not pass is reported for its first misplaced markup. -/
theorem exists_first_of_check (htelling : Landmark.Telling ls) (hf : function ≠ some .other)
    {n : Node} {st : Stand} {seen : Seen} {e : Problem} (hn : n.landmarks st ⊆ ls)
    (hwithin : seen.Within ls) (hknows : seen.Knows st n)
    (h : check (.of function as) n seen = .error e) : ∃ p, First (n.Misplaced st as) p e := by
  induction n generalizing st as seen with
  | mk k s ps ih =>
    have hpart {i : Nat} {m : Node} (hm : ps[i]? = some m) :=
      List.Subset.trans (Node.landmarks_subset_landmarks hm st) hn
    have hinner (i : Nat) := Surroundings.inner_of htelling function as hn hwithin hknows i
    rw [check_eq] at h
    split at h
    · -- The tree is itself misplaced markup, and nothing is read before it.
      next c hc =>
      cases h
      split at hc
      · next hmarkup =>
        rw [cause?_of hf] at hc
        exact ⟨[], Node.misplaced_nil.2 ⟨hmarkup, hc, rfl⟩, fun q _ _ => precedes_nil q⟩
      · cases hc
    · next hc =>
      obtain ⟨i, m, u, hm, hu, hgrows, herror, hbefore⟩ :=
        exists_of_checkParts_error (hwithin.record hn)
          (fun i m hm _ _ => check_keeps (hpart hm)) h
      rw [hinner] at herror
      obtain ⟨p, hp⟩ := ih m (List.mem_of_getElem? hm) (hpart hm) hu
        ((Seen.knows_record hm).mono hgrows) herror
      refine ⟨i :: p, Node.first_of_parts (fun hmarkup => ?_) (hp.among hm ?_)⟩
      · rw [if_pos hmarkup, cause?_of hf] at hc
        exact hc
      · intro j hj l hl
        obtain ⟨v, t, hv, hgrows', ht⟩ := hbefore j hj l hl
        rw [hinner] at ht
        exact (Node.placed_iff_not_misplaced hf).1 ((check_ok_iff htelling (hpart hl) hv
          ((Seen.knows_record hl).mono hgrows')).1 ⟨t, ht⟩)

theorem checkParts_eq_checkList {f : Nat → Surroundings} {a : Surroundings} {ns : List Node}
    (h : ∀ i < ns.length, f i = a) (seen : Seen) : checkParts f ns seen = checkList a ns seen := by
  induction ns generalizing f seen with
  | nil => rfl
  | cons n ns ih =>
    rw [checkParts, checkList, h 0 (Nat.zero_lt_succ _)]
    exact bind_congr fun s => ih (fun i hi => h (i + 1) (Nat.succ_lt_succ hi)) s

theorem checkParts_append (f : Nat → Surroundings) (ms ns : List Node) (seen : Seen) :
    checkParts f (ms ++ ns) seen =
      checkParts f ms seen >>= checkParts (fun i => f (ms.length + i)) ns := by
  induction ms generalizing f seen with
  | nil =>
    simp only [List.length_nil, Nat.zero_add]
    rfl
  | cons m ms ih =>
    have hf : (fun i => f ((m :: ms).length + i)) = fun i => f (ms.length + i + 1) := by
      funext i
      rw [List.length_cons]
      congr 1
      omega
    rw [List.cons_append, checkParts, checkParts, hf, bind_assoc]
    exact bind_congr fun s => ih (fun i => f (i + 1)) s

end Placement

namespace Component

/-- The markup at a place of the module or the body of a component is misplaced. -/
def Misplaced (c : Component) : List Nat → Problem → Prop :=
  Among (c.module ++ c.body) fun _ s => s.Misplaced .plain []

/-- The function that a statement of the module or the body stands in. -/
def around (c : Component) (i : Nat) : Option Enclosing :=
  if i < c.module.length then none else some .component

theorem around_ne_other (c : Component) (i : Nat) : c.around i ≠ some .other := by
  rw [around]
  split <;> exact fun h => by cases h

/-- The module and the body are searched as one. -/
theorem checkPlacement_eq (c : Component) :
    c.checkPlacement =
      checkParts (fun i => .of (c.around i) []) (c.module ++ c.body) {} >>= fun _ => pure c := by
  have hmodule (i : Nat) (hi : i < c.module.length) : Surroundings.of (c.around i) [] = {} := by
    rw [around, if_pos hi]
    rfl
  have hbody (i : Nat) (_ : i < c.body.length) :
      Surroundings.of (c.around (c.module.length + i)) [] = { enclosing := some .component } := by
    rw [around, if_neg (by omega)]
    rfl
  rw [checkParts_append, bind_assoc, checkParts_eq_checkList hmodule, checkPlacement]
  exact bind_congr fun seen => by rw [checkParts_eq_checkList hbody]

variable {c : Component}

theorem landmarks_subset {i : Nat} {s : Node} (hs : (c.module ++ c.body)[i]? = some s) :
    s.landmarks .plain ⊆ c.landmarks :=
  fun _ hl => List.mem_flatMap.2 ⟨s, List.mem_of_getElem? hs, hl⟩

/-- A component that is refused is reported for its first misplaced markup. -/
theorem exists_first_of_checkPlacement (htelling : Landmark.Telling c.landmarks) {e : Problem}
    (h : c.checkPlacement = .error e) : ∃ place, First c.Misplaced place e := by
  rw [checkPlacement_eq] at h
  have hstart : Seen.Within c.landmarks {} := ⟨fun _ h => (by cases h), fun _ h => (by cases h)⟩
  have hparts : checkParts (fun i => .of (c.around i) []) (c.module ++ c.body) {} = .error e := by
    cases hparts : checkParts (fun i => .of (c.around i) []) (c.module ++ c.body) {} with
    | error e' =>
      rw [hparts] at h
      cases h
      rfl
    | ok seen =>
      rw [hparts] at h
      cases h
  obtain ⟨i, s, seen, hs, hseen, -, herror, hbefore⟩ := exists_of_checkParts_error hstart
    (fun i s hs _ _ => check_keeps (landmarks_subset hs)) hparts
  obtain ⟨p, hp⟩ := exists_first_of_check htelling (c.around_ne_other i) (landmarks_subset hs) hseen
    (Seen.knows_plain seen s) herror
  refine ⟨i :: p, hp.among (P := fun _ s => s.Misplaced .plain []) hs fun j hj m hm => ?_⟩
  obtain ⟨u, t, hu, -, ht⟩ := hbefore j hj m hm
  exact (Node.placed_iff_not_misplaced (c.around_ne_other j)).1
    ((check_ok_iff htelling (landmarks_subset hm) hu (Seen.knows_plain u m)).1 ⟨t, ht⟩)

/-- No markup of an accepted component is misplaced. -/
theorem not_misplaced_of_checkPlacement (htelling : Landmark.Telling c.landmarks) {d : Component}
    (h : c.checkPlacement = .ok d) (place : List Nat) (e : Problem) : ¬c.Misplaced place e := by
  obtain ⟨hmodule, hbody⟩ := (checkPlacement_ok_iff htelling).1 ⟨d, h⟩
  intro hplace
  cases place with
  | nil => exact hplace
  | cons i p =>
    obtain ⟨s, hs, hplace⟩ := hplace
    rcases List.mem_append.1 (List.mem_of_getElem? hs) with hs | hs
    · exact (Node.placed_iff_not_misplaced fun h => by cases h).1 (hmodule s hs) p e hplace
    · exact (Node.placed_iff_not_misplaced fun h => by cases h).1 (hbody s hs) p e hplace

/-- A place has one problem at most. -/
theorem Misplaced.unique {place : List Nat} {e e' : Problem} (h : c.Misplaced place e)
    (h' : c.Misplaced place e') : e = e' := by
  cases place with
  | nil => exact h.elim
  | cons i p =>
    obtain ⟨s, hs, m, hm, -, hcause, hspan⟩ := h
    obtain ⟨s', hs', m', hm', -, hcause', hspan'⟩ := h'
    cases hs.symm.trans hs'
    cases hm.symm.trans hm'
    obtain ⟨cause, span⟩ := e
    obtain ⟨cause', span'⟩ := e'
    cases hcause.symm.trans hcause'
    cases hspan.trans hspan'.symm
    rfl

/-- Where different things have different stretches, a component is refused if and
    only if some markup of its module or its body is misplaced, and it is reported
    for the first such markup, with the first reason that there is. -/
theorem checkPlacement_first (htelling : Landmark.Telling c.landmarks) :
    ((∃ e, c.checkPlacement = .error e) ↔ ∃ place e, c.Misplaced place e) ∧
      ∀ e, c.checkPlacement = .error e ↔ ∃ place, First c.Misplaced place e := by
  constructor
  · constructor
    · rintro ⟨e, he⟩
      obtain ⟨place, hplace, -⟩ := exists_first_of_checkPlacement htelling he
      exact ⟨place, e, hplace⟩
    · rintro ⟨place, e, hplace⟩
      cases hcheck : c.checkPlacement with
      | error e' => exact ⟨e', rfl⟩
      | ok d => exact absurd hplace (not_misplaced_of_checkPlacement htelling hcheck place e)
  · refine fun e => ⟨exists_first_of_checkPlacement htelling, ?_⟩
    rintro ⟨place, hplace, hfirst⟩
    cases hcheck : c.checkPlacement with
    | error e' =>
      -- Both are the first, so they are in the same place.
      obtain ⟨place', hplace', hfirst'⟩ := exists_first_of_checkPlacement htelling hcheck
      have hsame := eq_of_not_precedes (hfirst' _ _ hplace) (hfirst _ _ hplace')
      subst hsame
      rw [hplace.unique hplace']
    | ok d => exact absurd hplace (not_misplaced_of_checkPlacement htelling hcheck place e)

/-- The problem that a component is refused for. -/
def refusal? (c : Component) : Option Problem :=
  match c.checkPlacement with
  | .error e => some e
  | .ok _ => none

theorem checkPlacement_of_refusal? {e : Problem} (h : c.refusal? = some e) :
    c.checkPlacement = .error e := by
  unfold refusal? at h
  split at h
  · cases h
    assumption
  · cases h

/-- Markup in a callback within a function of its own, in a branch of a conditional
    that a hole holds, then in a branch, then in a loop. -/
def pickSource : Text :=
  "export default (\x7b a, xs \x7d) => \x7b const rows = () => xs.map(x => <i>\x7ba ? <b/> : x\x7d</i>);
    const v = a ? rows : <u/>; while (a) v(<s/>); return v; \x7d;"

theorem pick_first_in_branch : ∃ c : Component,
    compileThrough {} [.props, .state] pickSource = .ok c ∧
      (c.landmarks.map fun l => (l.span, l.function)).Nodup ∧
      ∃ e place, c.checkPlacement = .error e ∧ First c.Misplaced place e ∧
        e.cause.rule.code = "J2S-MARKUP-002" ∧ e.span = ⟨112, 116⟩ := by
  have hsource : ((compileThrough {} [.props, .state] pickSource).toOption.map fun c =>
      (decide (c.landmarks.map fun l => (l.span, l.function)).Nodup, c.refusal?)) =
      some (true, some ⟨.markupInBranch, ⟨112, 116⟩⟩) := by
    rw [(by apply String.toList_ofList : pickSource = _)]
    decide +kernel
  obtain ⟨c, hc, hsource⟩ := of_toOption_map hsource
  obtain ⟨hnodup, hrefusal⟩ : _ ∧ _ := by simpa only [Prod.mk.injEq] using hsource
  have hnodup := of_decide_eq_true hnodup
  have hrefused := checkPlacement_of_refusal? hrefusal
  obtain ⟨place, hplace⟩ :=
    ((checkPlacement_first (Landmark.telling_of_nodup hnodup)).2 _).1 hrefused
  exact ⟨c, hc, hnodup, _, place, hrefused, hplace, rfl, rfl⟩

/-- Markup in a function that is the default of a prop is accepted. -/
theorem markup_in_default_accepted :
    ((compileThrough {} [.props, .state, .placement]
        "export default (\x7b a = () => <b/> \x7d) => <p>\x7ba\x7d</p>;").toOption.bind fun c =>
      c.params[0]?.bind fun s => (s.at? [1, 0, 1, 1, 3]).map fun m =>
        (m.isMarkup, misplaced? (s.ancestors .plain [] [1, 0, 1, 1, 3]))) =
      some (true, some .markupInFunction) := by
  decide +kernel

end Component

end Unhook
