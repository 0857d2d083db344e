import Unhook.Proofs.Reference

/-!
# Variables that are removed

The statements that are left when markup variables are removed are those of the
component before, without the declarations of markup, with their holes filled:
it makes no difference which is done first (`MarkupTable.withoutMarkup_substitute`).
So whatever refers to a removed variable afterwards can be told from the
statements before.

* `Component.remaining`: the statements that are left, before their holes are
  filled;
* `Component.inlineMarkup_statements`: what is left is filled.
-/

namespace Unhook

namespace Node

variable {r : Text → Option Node}

theorem isMarkupValue_substitute (n : Node) : (n.substitute r).isMarkupValue = n.isMarkupValue := by
  simp only [isMarkupValue, isMarkup, isPlaceholder, kind_substitute, identifier?_substitute]

theorem isAbsent_substitute (n : Node) : (n.substitute r).isAbsent = n.isAbsent := by
  simp only [isAbsent, kind_substitute]

theorem binding?_substitute (n : Node) : (n.substitute r).binding? = n.binding? := by
  ext x
  rw [binding?_eq_some, binding?_eq_some, kind_substitute]

theorem target?_substitute (n : Node) : (n.substitute r).target? = n.target? := by
  ext x
  rw [target?_eq_some, target?_eq_some, kind_substitute]

/-- A declarator of a plain name, told by its parts. -/
theorem declarator?_eq (n : Node) : n.declarator? = match n.kind, n.parts with
    | .declarator _, [b, _, v] => if v.isAbsent then none else b.binding?.map (·, v)
    | _, _ => none := by
  obtain ⟨k, s, ps⟩ := n
  cases k
  case declarator =>
    rcases ps with _ | ⟨b, _ | ⟨t, _ | ⟨v, _ | ⟨w, ps⟩⟩⟩⟩
    case cons.cons.cons.nil =>
      obtain ⟨k, s, qs⟩ := b
      cases k <;> simp [declarator?, binding?]
    all_goals simp [declarator?]
  all_goals rfl

theorem assignment?_eq (n : Node) : n.assignment? = match n.kind, n.parts with
    | .assign _, [b, v] => b.target?.map (·, v)
    | _, _ => none := by
  obtain ⟨k, s, ps⟩ := n
  cases k
  case assign =>
    rcases ps with _ | ⟨b, _ | ⟨v, _ | ⟨w, ps⟩⟩⟩
    case cons.cons.nil =>
      obtain ⟨k, s, qs⟩ := b
      cases k <;> simp [assignment?, target?]
    all_goals simp [assignment?]
  all_goals rfl

theorem declarator?_substitute (n : Node) :
    (n.substitute r).declarator? = n.declarator?.map fun (x, v) => (x, v.substitute r) := by
  obtain ⟨k, s, ps⟩ := n
  rw [declarator?_eq, declarator?_eq, kind_substitute]
  cases k
  case declarator =>
    rw [substitute_mk (by simp)]
    rcases ps with _ | ⟨b, _ | ⟨t, _ | ⟨v, _ | ⟨w, ps⟩⟩⟩⟩
    case cons.cons.cons.nil =>
      simp only [kind_mk, parts_mk, List.map_cons, List.map_nil, isAbsent_substitute,
        binding?_substitute]
      split
      · rfl
      · cases b.binding? <;> rfl
    all_goals rfl
  all_goals rfl

theorem assignment?_substitute (n : Node) :
    (n.substitute r).assignment? = n.assignment?.map fun (x, v) => (x, v.substitute r) := by
  obtain ⟨k, s, ps⟩ := n
  rw [assignment?_eq, assignment?_eq, kind_substitute]
  cases k
  case assign =>
    rw [substitute_mk (by simp)]
    rcases ps with _ | ⟨b, _ | ⟨v, _ | ⟨w, ps⟩⟩⟩
    case cons.cons.nil =>
      simp only [kind_mk, parts_mk, List.map_cons, List.map_nil, target?_substitute]
      cases b.target? <;> rfl
    all_goals rfl
  all_goals rfl

theorem unlabeled_of_kind {n : Node} (h : ∀ l, n.kind ≠ .labeled l) : n.unlabeled = n := by
  unfold unlabeled
  split
  · exact (h _ rfl).elim
  · rfl

theorem unlabeled_substitute (n : Node) :
    (n.substitute r).unlabeled = n.unlabeled.substitute r := by
  by_cases hn : ∃ l, n.kind = .labeled l
  · obtain ⟨l, hl⟩ := hn
    obtain ⟨k, s, ps⟩ := n
    obtain rfl : k = .labeled l := hl
    rw [substitute_mk (by simp)]
    rcases ps with _ | ⟨a, _ | ⟨b, ps⟩⟩
    case cons.nil => rfl
    all_goals simp [unlabeled, substitute_mk]
  · have hn (l : Text) : n.kind ≠ .labeled l := fun hl => hn ⟨l, hl⟩
    rw [unlabeled_of_kind hn, unlabeled_of_kind (by simpa only [kind_substitute])]

end Node

namespace MarkupTable

open Node

variable {r : Text → Option Node}

/-- The markup that a statement gives to names, told by kind and parts. -/
theorem ofStatement_eq (s : Node) : ofStatement s = match s.unlabeled.kind, s.unlabeled.parts with
    | .declaration _ _, ds =>
      ds.filterMap fun d => d.declarator?.filter fun (_, value) => value.isMarkupValue
    | .expressionStatement, [e] =>
      (e.assignment?.filter fun (_, value) => value.isMarkupValue).toList
    | _, _ => [] := by
  unfold ofStatement
  generalize s.unlabeled = u
  obtain ⟨k, sp, ps⟩ := u
  cases k
  case expressionStatement => rcases ps with _ | ⟨a, _ | ⟨b, ps⟩⟩ <;> rfl
  all_goals rfl

/-- Filling holes fills those of the markup that is given to names. -/
theorem ofStatement_substitute (s : Node) :
    ofStatement (s.substitute r) = (ofStatement s).map fun (x, v) => (x, v.substitute r) := by
  have hfilter (o : Option (Text × Node)) :
      (o.map fun (x, v) => (x, v.substitute r)).filter (fun (_, value) => value.isMarkupValue) =
        (o.filter fun (_, value) => value.isMarkupValue).map fun (x, v) => (x, v.substitute r) := by
    cases o with
    | none => rfl
    | some p =>
      simp only [Option.map_some, Option.filter_some, isMarkupValue_substitute]
      split <;> rfl
  rw [ofStatement_eq, ofStatement_eq, unlabeled_substitute, kind_substitute]
  generalize s.unlabeled = u
  obtain ⟨k, sp, ps⟩ := u
  cases k
  case declaration =>
    rw [substitute_mk (by simp)]
    simp only [kind_mk, parts_mk, List.filterMap_map, List.map_filterMap, Function.comp_def,
      declarator?_substitute, hfilter]
  case expressionStatement =>
    rw [substitute_mk (by simp)]
    rcases ps with _ | ⟨a, _ | ⟨b, ps⟩⟩
    case cons.nil =>
      simp only [kind_mk, parts_mk, List.map_cons, List.map_nil, assignment?_substitute, hfilter]
      cases a.assignment?.filter fun (_, value) => value.isMarkupValue <;> rfl
    all_goals rfl
  all_goals rfl

/-- Whether a declarator is kept when the declarations of `names` are removed. -/
def keeps (names : List Text) (d : Node) : Bool :=
  match d with
  | .mk (.declarator _) _ (.mk (.binding n) _ _ :: _) => !names.contains n
  | _ => true

/-- A declarator goes if its pattern is one of the names. -/
theorem keeps_eq_false {names : List Text} {d : Node} : keeps names d = false ↔
    (∃ b, d.kind = .declarator b) ∧ ∃ x ∈ names, d.parts.head?.bind binding? = some x := by
  unfold keeps
  split
  · next b s n sn qs ps => simp [binding?]
  · next hd =>
    refine ⟨fun h => Bool.noConfusion h, ?_⟩
    rintro ⟨⟨b, hk⟩, x, -, hx⟩
    obtain ⟨p, hp, hpx⟩ := Option.bind_eq_some_iff.1 hx
    obtain ⟨k, s, ps⟩ := d
    obtain ⟨qs, rfl⟩ := List.head?_eq_some_iff.1 hp
    obtain ⟨k', s', rs⟩ := p
    cases binding?_eq_some.1 hpx
    exact (hd b s x s' rs qs (by rw [show k = .declarator b from hk])).elim

theorem keeps_substitute (names : List Text) (d : Node) :
    keeps names (d.substitute r) = keeps names d := by
  rw [Bool.eq_iff_iff, ← Decidable.not_iff_not, Bool.not_eq_true, Bool.not_eq_true, keeps_eq_false,
    keeps_eq_false, kind_substitute]
  refine and_congr_right fun hk => ?_
  obtain ⟨k, s, ps⟩ := d
  obtain ⟨b, rfl⟩ := hk
  rw [substitute_mk (by simp)]
  cases ps <;> simp [binding?_substitute]

/-- The declarators of a declaration that stay when the markup variables `names` go. -/
def kept (names : List Text) (u : Node) : List Node :=
  u.parts.filter (keeps names)

theorem kept_substitute (names : List Text) (k : VarKind) (d : Bool) (sp : Span)
    (ds : List Node) : kept names ((mk (.declaration k d) sp ds).substitute r) =
      (kept names (mk (.declaration k d) sp ds)).map (substitute r) := by
  rw [substitute_mk (by simp), kept, kept, parts_mk, parts_mk, List.filter_map]
  exact congrArg _ (congrArg (List.filter · ds) (funext fun u => keeps_substitute names u))

/-- What is left of a statement, told by kind and parts. -/
theorem withoutMarkup_eq (s : Node) : withoutMarkup s =
    if ((ofStatement s).map (·.1)).isEmpty then some s
    else match s.kind, s.parts with
      | .declaration k d, _ =>
        if (kept ((ofStatement s).map (·.1)) s).isEmpty then none
        else some (mk (.declaration k d) s.span (kept ((ofStatement s).map (·.1)) s))
      | .labeled l, [u] => match u.kind with
        | .declaration k d =>
          if (kept ((ofStatement s).map (·.1)) u).isEmpty then none
          else some (mk (.labeled l) s.span
            [mk (.declaration k d) u.span (kept ((ofStatement s).map (·.1)) u)])
        | _ => none
      | _, _ => none := by
  unfold withoutMarkup
  dsimp only
  split
  · rfl
  · obtain ⟨k, sp, ps⟩ := s
    cases k
    case labeled =>
      rcases ps with _ | ⟨⟨k, su, ds⟩, _ | ⟨b, ps⟩⟩
      case nil => rfl
      all_goals cases k <;> rfl
    all_goals rfl

/-- It makes no difference whether declarations of markup are removed first, or
    holes are filled first. -/
theorem withoutMarkup_substitute (s : Node) :
    withoutMarkup (s.substitute r) = (withoutMarkup s).map (substitute r) := by
  have hnames : (ofStatement (s.substitute r)).map (·.1) = (ofStatement s).map (·.1) := by
    rw [ofStatement_substitute, List.map_map]
    rfl
  rw [withoutMarkup_eq, withoutMarkup_eq, hnames, kind_substitute]
  split
  · rfl
  next h =>
    generalize (ofStatement s).map (·.1) = names
    clear hnames h
    obtain ⟨k, sp, ps⟩ := s
    cases k
    case declaration k d =>
      dsimp only [kind_mk]
      rw [kept_substitute]
      cases kept names (mk (.declaration k d) sp ps) with
      | nil => rfl
      | cons u us => simp [substitute_mk, span_mk]
    case labeled l =>
      rw [substitute_mk (by simp)]
      rcases ps with _ | ⟨⟨k, su, ds⟩, _ | ⟨b, ps⟩⟩
      case cons.nil =>
        simp only [kind_mk, parts_mk, List.map_cons, List.map_nil, kind_substitute]
        cases k
        case declaration k d =>
          dsimp only
          rw [kept_substitute]
          cases kept names (mk (.declaration k d) su ds) with
          | nil => rfl
          | cons u us => simp [substitute_mk, span_mk]
        all_goals rfl
      all_goals rfl
    all_goals rfl

end MarkupTable

namespace Component

open Node

/-- The statements that are left when markup variables are removed, before their
    holes are filled. The last one returns the value of the variable that it
    returned. -/
def remaining (c : Component) : List Node :=
  (c.module ++ fillLast c.markupTable c.body).filterMap MarkupTable.withoutMarkup

/-- What is left of the statements is filled. -/
theorem inlineMarkup_statements (c : Component) : c.inlineMarkup.module ++ c.inlineMarkup.body =
    c.remaining.map (substitute c.markupTable.resolve) := by
  have hfill (ns : List Node) : (substituteList c.markupTable.resolve ns).filterMap
      MarkupTable.withoutMarkup = (ns.filterMap MarkupTable.withoutMarkup).map
        (substitute c.markupTable.resolve) := by
    rw [substituteList_eq, List.filterMap_map, List.map_filterMap]
    exact congrArg (List.filterMap · ns) (funext MarkupTable.withoutMarkup_substitute)
  rw [remaining, List.filterMap_append, List.map_append, ← hfill, ← hfill]
  rfl

end Component

end Unhook
