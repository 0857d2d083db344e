import Unhook.Proofs.Closure
import Unhook.Proofs.Expansion
import Unhook.Proofs.Trimming

/-!
# The items of a script

Every item of a script is written from one thing of the compiled component: the lifecycle
functions that it imports, a statement of its module or its body, a prop or a setter. How
it is written is said here once, so that what is known of these things is known of what
stands in the script.

* `Document.Origin`: what an item is written from;
* `Document.Origin.Writes`: how it is written;
* `Component.writes_script`: the items of a script, one after the other.
-/

namespace Unhook

/-- Whether a statement of the module is not written at all. -/
def Node.isLeftOut (s : Node) : Bool :=
  match s.kind with
  | .importDeclaration _ _ source => source.path = frameworkModule
  | .exportList _ _ _ | .exportAll _ _ _ | .exportDefault => true
  | _ => false

/-- What a statement of the module is written as. -/
theorem Document.moduleItem?_eq_some_iff {s : Node} {t : Text} : moduleItem? s = some t ↔
    s.isLeftOut = false ∧ (s.kind = .exportDeclaration ∧ s.printStatement = "export " ++ t ∨
      s.printStatement = t ∧ (s.kind = .exportDeclaration → Text.after? "export " t = none)) := by
  unfold moduleItem? Node.isLeftOut
  cases hk : s.kind
  case importDeclaration =>
    dsimp only
    split <;> simp_all
  case exportDeclaration =>
    cases ht : Text.after? "export " s.printStatement with
    | none =>
      have hne : s.printStatement ≠ "export " ++ t := fun h => by
        rw [Block.after?_eq_some_iff.2 h] at ht
        cases ht
      simp only [ht, hne, Option.getD_none, Option.some.injEq, true_and, false_or, and_false]
      exact ⟨fun h => ⟨h, fun _ => h ▸ ht⟩, fun h => h.1⟩
    | some r =>
      have hr := Block.after?_eq_some_iff.1 ht
      simp only [hr, Option.some.injEq, true_and, List.append_cancel_left_eq]
      refine ⟨.inl, fun h => h.elim id fun h => ?_⟩
      have hnone := h.2 trivial
      rw [← h.1, Block.after?_eq_some_iff.2 rfl] at hnone
      cases hnone
  all_goals simp

namespace Document

/-- What an item of the script is written from. -/
inductive Origin
  | lifecycle (names : List Text)
  | ofModule (s : Node)
  | prop (f : Field)
  | ofBody (s : Node)
  | setter (name value : Text)

/-- How an item is written. A statement of the module is no longer exported, and a setter is
    read from its text before it is written. -/
def Origin.Writes (options : Options) : Origin → Text → Prop
  | lifecycle names, t =>
    t = "import \x7b " ++ Text.join ", " names ++ " \x7d from \"" ++ options.runtimeModule ++ "\";"
  | ofModule s, t => s.kind = .exportDeclaration ∧ s.printStatement = "export " ++ t ∨
    s.printStatement = t ∧ (s.kind = .exportDeclaration → Text.after? "export " t = none)
  | prop f, t => t = "export let " ++ f.name ++ (f.default.elim [] fun d => " = " ++ d : Text) ++ ";"
  | ofBody s, t => t = s.printStatement
  | setter x v, t => ∃ (param : Text) (f : Node), param ≠ v ∧ Template.read options.typescript
    ("function " ++ x ++ "(" ++ param ++ ") \x7b " ++ v ++ " = " ++ param ++ "; \x7d") = .ok f ∧
      t = f.printStatement

variable {options : Options}

theorem writes_lifecycleImport? (names : List Text) :
    List.Forall₂ (Origin.Writes options) (if names.isEmpty then [] else [.lifecycle names])
      (lifecycleImport? options.runtimeModule names).toList := by
  unfold lifecycleImport?
  split
  · exact .nil
  · exact .cons rfl .nil

theorem isSome_moduleItem? (s : Node) : (moduleItem? s).isSome = !s.isLeftOut := by
  obtain ⟨k, sp, ps⟩ := s
  cases k
  case importDeclaration _ _ source =>
    by_cases hpath : source.path = frameworkModule
    · simp [moduleItem?, Node.isLeftOut, hpath]
    · simp [moduleItem?, Node.isLeftOut, hpath]
  all_goals rfl

theorem writes_moduleItems (ss : List Node) : List.Forall₂ (Origin.Writes options)
    ((ss.filter fun s => !s.isLeftOut).map .ofModule) (ss.filterMap moduleItem?) := by
  induction ss with
  | nil => exact .nil
  | cons s ss ih =>
    have hsome := isSome_moduleItem? s
    cases h : moduleItem? s with
    | none =>
      rw [h] at hsome
      rw [List.filterMap_cons_none h, List.filter_cons_of_neg (by simp [← hsome])]
      exact ih
    | some item =>
      rw [h] at hsome
      rw [List.filterMap_cons_some h, List.filter_cons_of_pos (by simp [← hsome]), List.map_cons]
      exact .cons (moduleItem?_eq_some_iff.1 h).2 ih

theorem writes_propItem (f : Field) : Origin.Writes options (.prop f) (propItem f) := by
  obtain ⟨x, default⟩ := f
  cases default with
  | none => exact rfl
  | some d => exact rfl

theorem writes_setterItems {c : Component} {names items : List Text}
    (h : setterItems options.typescript c names = .ok items) :
    List.Forall₂ (Origin.Writes options) ((c.settersOf names).map fun p => .setter p.1 p.2) items := by
  obtain ⟨fs, rfl, hfs⟩ := setterItems_eq_ok h
  rw [List.forall₂_map_left_iff, List.forall₂_map_right_iff]
  exact hfs.imp fun p f hread => ⟨_, f, setterParam_ne p.2, hread, rfl⟩

end Document

namespace Component

/-- What the items of a script are written from, in four groups: lifecycle functions, the
    module, props, and the component with its setters. -/
def origins (c : Component) : List (List Document.Origin) :=
  [if c.lifecycle.isEmpty then [] else [.lifecycle c.lifecycle],
    (c.module.filter fun s => !s.isLeftOut).map .ofModule,
    (c.fields.filter fun f => !Document.isInternal f.name).map .prop,
    c.body.dropLast.map .ofBody ++ (c.settersOf c.synthesized).map fun p => .setter p.1 p.2]

/-- Every item of a script is written from the thing in its place. -/
theorem writes_script {options : Options} {c : Component} {items : List Text}
    (h : c.script options = .ok items) :
    List.Forall₂ (Document.Origin.Writes options) c.origins.flatten items := by
  obtain ⟨setters, hitems, h⟩ := of_bind_eq_ok h
  cases h
  have hprops (fs : List Field) : List.Forall₂ (Document.Origin.Writes options) (fs.map .prop)
      (fs.map Document.propItem) := by
    rw [List.forall₂_map_left_iff, List.forall₂_map_right_iff]
    exact List.forall₂_same.2 fun f _ => Document.writes_propItem f
  have hbody (ss : List Node) : List.Forall₂ (Document.Origin.Writes options) (ss.map .ofBody)
      (ss.map Node.printStatement) := by
    rw [List.forall₂_map_left_iff, List.forall₂_map_right_iff]
    exact List.forall₂_same.2 fun s _ => rfl
  simp only [origins, List.flatten_cons, List.flatten_nil, List.append_nil, ← List.append_assoc]
  exact List.rel_append (List.rel_append (List.rel_append (List.rel_append
    (Document.writes_lifecycleImport? c.lifecycle) (Document.writes_moduleItems c.module))
    (hprops _)) (hbody _)) (Document.writes_setterItems hitems)

end Component

end Unhook
