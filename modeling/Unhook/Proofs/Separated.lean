import Unhook.Proofs.Spelling
import Unhook.Proofs.Trimming

/-!
# Trees stay separated

Whether a tree is separated depends on where the texts of its nodes have signs, and on
nothing else of them (`Kind.edge`). Giving markup its output form puts names where calls
and choices were, and other names for attributes; so a separated tree stays separated.

* `Kind.separates_edge`: what it depends on;
* `Node.Alike`: trees that can stand for one another;
* `Node.alike_lowerLists`, `Node.alike_lowerChoices`, `Node.alike_renameAttributes`: the
  steps.
-/

namespace Unhook

namespace Kind

/-- A kind as far as signs go: the kinds without any are one. -/
def edge (k : Kind) : Kind := if k.opensApart || k.endsApart then k else .null

@[simp] theorem opensApart_edge (k : Kind) : k.edge.opensApart = k.opensApart := by
  unfold edge
  split
  · rfl
  · next h =>
    rw [Bool.not_eq_true, Bool.or_eq_false_iff] at h
    rw [h.1]
    rfl

@[simp] theorem endsApart_edge (k : Kind) : k.edge.endsApart = k.endsApart := by
  unfold edge
  split
  · rfl
  · next h =>
    rw [Bool.not_eq_true, Bool.or_eq_false_iff] at h
    rw [h.2]
    rfl

@[simp] theorem isEnclosed_edge (k : Kind) : k.edge.isEnclosed = k.isEnclosed := by
  unfold edge
  split
  · rfl
  · next h =>
    rw [Bool.not_eq_true, Bool.or_eq_false_iff] at h
    rw [(Bool.or_eq_false_iff.1 h.1).1]
    rfl

theorem apart_edge (ks : List Kind) : apart (ks.map edge) = apart ks := by
  fun_induction apart ks with
  | case1 a b ks ih =>
    rw [List.map_cons] at ih ⊢
    rw [List.map_cons, apart, ih, isEnclosed_edge, isEnclosed_edge]
  | case2 ks h =>
    rcases ks with _ | ⟨a, _ | ⟨b, ks⟩⟩
    · rfl
    · rfl
    · exact (h a b ks rfl).elim

/-- Parts are separated by where their texts have signs. -/
theorem separates_edge (k : Kind) (ks : List Kind) :
    k.separates (ks.map edge) = k.separates ks := by
  cases k
  -- A part that is to begin with a sign, or to end with one.
  case call | new =>
    rcases ks with _ | ⟨_, _ | ⟨ts, _⟩⟩
    case cons.cons => exact opensApart_edge ts
    all_goals rfl
  case param | method | field =>
    cases ks with
    | nil => rfl
    | cons ds _ => exact endsApart_edge ds
  case instantiation | typeReference | typeQuery =>
    rcases ks with _ | ⟨_, _ | ⟨ts, _ | ⟨_, _⟩⟩⟩
    case cons.cons.nil => exact opensApart_edge ts
    all_goals rfl
  case typeAlias =>
    rcases ks with _ | ⟨ts, _ | ⟨_, _ | ⟨_, _⟩⟩⟩
    case cons.cons.nil => exact opensApart_edge ts
    all_goals rfl
  case interface =>
    rcases ks with _ | ⟨ts, _ | ⟨_, _ | ⟨_, _ | ⟨_, _⟩⟩⟩⟩
    case cons.cons.cons.nil => exact opensApart_edge ts
    all_goals rfl
  case taggedTemplate =>
    rcases ks with _ | ⟨_, _ | ⟨ts, _ | ⟨t, _ | ⟨_, _⟩⟩⟩⟩
    case cons.cons.cons.nil => exact congrArg₂ and (opensApart_edge ts) (opensApart_edge t)
    all_goals rfl
  case methodSignature =>
    rcases ks with _ | ⟨_, _ | ⟨ts, _ | ⟨_, _ | ⟨_, _ | ⟨_, _⟩⟩⟩⟩⟩
    case cons.cons.cons.cons.nil => exact opensApart_edge ts
    all_goals rfl
  case importType =>
    rcases ks with _ | ⟨_, _ | ⟨_, _ | ⟨_, _ | ⟨ts, _ | ⟨_, _⟩⟩⟩⟩⟩
    case cons.cons.cons.cons.nil => exact opensApart_edge ts
    all_goals rfl
  case function =>
    rcases ks with _ | ⟨_, _ | ⟨ts, _ | ⟨_, _ | ⟨_, _ | ⟨_, _ | ⟨_, _⟩⟩⟩⟩⟩⟩
    case cons.cons.cons.cons.cons.nil => exact opensApart_edge ts
    all_goals rfl
  case «class» =>
    rcases ks with _ | ⟨_, _ | ⟨_, _ | ⟨ts, _ | ⟨_, _ | ⟨args, _ | ⟨_, _ | ⟨_, _ | ⟨_, _⟩⟩⟩⟩⟩⟩⟩⟩
    case cons.cons.cons.cons.cons.cons.cons.nil =>
      exact congrArg₂ and (opensApart_edge ts) (opensApart_edge args)
    all_goals rfl
  -- The number of parts.
  case template texts | templateType texts =>
    exact congrArg (fun m => decide (texts.length ≤ m + 1)) (List.length_map edge)
  case closing | container | spreadChild =>
    exact congrArg (fun m => decide (m = 1)) (List.length_map edge)
  -- Neighbours.
  case fragment => exact apart_edge ks
  case element =>
    cases ks with
    | nil => rfl
    | cons o ks =>
      have hlast : (ks.map edge).getLast?.any (fun c => c.opensApart && c.endsApart) =
          ks.getLast?.any fun c => c.opensApart && c.endsApart := by
        rw [List.getLast?_map, Option.any_map]
        simp
      have hapart : apart (ks.map edge).dropLast = apart ks.dropLast := by
        rw [← List.map_dropLast, apart_edge]
      exact congrArg₂ and (congrArg₂ and (opensApart_edge o) hlast) hapart
  all_goals rfl

end Kind

namespace Node

/-- Trees of which the second has signs where the first does, and is separated if the first
    one is. -/
structure Alike (n m : Node) : Prop where
  edge : m.kind.edge = n.kind.edge
  separated : n.isSeparated = true → m.isSeparated = true

theorem edges_of_forall₂ {ps qs : List Node} (h : List.Forall₂ Alike ps qs) :
    (qs.map kind).map Kind.edge = (ps.map kind).map Kind.edge := by
  induction h with
  | nil => rfl
  | cons h _ ih => exact congrArg₂ List.cons h.edge ih

theorem Alike.parts {k l : Kind} {s : Span} {ps qs : List Node} (hedge : l.edge = k.edge)
    (hk : ∀ ks, k.separates ks = true → l.separates ks = true) (h : List.Forall₂ Alike ps qs) :
    Alike (.mk k s ps) (.mk l s qs) := by
  refine ⟨hedge, fun hps => ?_⟩
  obtain ⟨hseparates, hps⟩ := isSeparated_mk.1 hps
  refine isSeparated_mk.2 ⟨hk _ ?_, fun q hq => ?_⟩
  · rwa [← Kind.separates_edge, edges_of_forall₂ h, Kind.separates_edge]
  · obtain ⟨p, hp, h⟩ := exists_of_forall₂ h hq
    exact h.separated (hps p hp)

/-- Trees with their attributes renamed. -/
theorem alike_renameAttributes (n : Node) : Alike n n.renameAttributes := by
  induction n with
  | mk k s ps ih =>
    have hps : List.Forall₂ Alike ps (renameAttributesList ps) := by
      rw [renameAttributesList_eq, List.forall₂_map_right_iff]
      exact List.forall₂_same.2 ih
    cases k
    case «attribute» space name =>
      cases space with
      | none => exact .parts rfl (fun _ _ => rfl) hps
      | some space => exact .parts rfl (fun _ h => h) hps
    all_goals exact .parts rfl (fun _ h => h) hps

section Blocks

variable {names : List Text}

theorem isSeparated_placeholderNode (i : Nat) : (Block.placeholderNode i).isSeparated = true := rfl

/-- Trees with their lists made blocks. -/
theorem alike_lowerLists (n : Node) (bs : List Block) : Alike n (n.lowerLists names bs).1 := by
  refine lowerLists_induction (.parts rfl fun _ h => h) (fun {k s ps} i hk => ?_) n bs
  refine ⟨?_, fun _ => isSeparated_placeholderNode i⟩
  cases k
  case call => rfl
  all_goals cases hk

/-- Trees with their choices made blocks. -/
theorem alike_lowerChoices (n : Node) (a : Bool) (bs : List Block) :
    Alike n (n.lowerChoices names a bs).1 := by
  refine lowerChoices_induction (.parts rfl fun _ h => h) (fun i => ⟨rfl, fun _ => ?_⟩) n a bs
  exact isSeparated_mk.2 ⟨rfl, List.forall_mem_singleton.2 (isSeparated_placeholderNode i)⟩

end Blocks

end Node

end Unhook
