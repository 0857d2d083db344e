import Unhook.Proofs.Tree

/-!
# Scopes

Which names are bound around a place in a tree, by the rules of lexical scoping:
a function binds its parameters, and one that is an expression its own name, a
block what is declared in it, a body moreover the variables of all the blocks
within it, a loop what its head declares, a `catch` its pattern.

* `Node.binds`: the names that a node binds around one of its parts;
* `Node.namesAround`: the names that are bound around the end of a path;
* `KeepsScopes`: a rewriting of trees that keeps everything that introduces
  names. What a node binds is then the same before and after
  (`KeepsScopes.binds`).
-/

namespace Unhook

/-- The names that an import brings in. -/
def ImportClause.names (c : ImportClause) : List Text :=
  c.default.toList ++ c.namespace_.toList ++ (c.entries.getD []).map (·.inner.text)

/-- Whether statements within a node of this kind share the variables of the
    body that it stands in. -/
def Kind.sharesVariables : Kind → Bool
  | .block | .ifStatement | .forStatement | .forIn | .forOf _ | .whileStatement | .doWhile
  | .switch | .case | .tryStatement | .catchClause | .labeled _ | .withStatement
  | .exportDeclaration => true
  | _ => false

namespace Node

/-- The names that a declarator introduces. -/
def declaratorNames : Node → List Text
  | mk (.declarator _) _ (p :: _) => p.names
  | _ => []

/-- The name that a namespace is declared by: the first one of its path. -/
def namespaceNames : Node → List Text
  | mk (.word n) _ _ => [n]
  | mk (.qualified _) _ [left] => left.namespaceNames
  | _ => []

/-- The names that a statement declares for the block that it stands in. -/
def declaredNames : Node → List Text
  | mk (.declaration .var _) _ _ => []
  | mk (.declaration _ _) _ ds => ds.flatMap declaratorNames
  | mk (.function form) _ (name :: _) => if form.declaration then name.names else []
  | mk (.class form) _ (_ :: name :: _) => if form.declaration then name.names else []
  | mk (.enum _ name) _ _ => [name]
  | mk (.namespace_ _ _) _ (name :: _) => name.namespaceNames
  | mk (.importDeclaration _ clause _) _ _ => (clause.map (·.names)).getD []
  | mk (.importEquals name) _ _ => [name]
  | mk .exportDeclaration _ [d] | mk .exportDefault _ [d] | mk (.labeled _) _ [d] => d.declaredNames
  | _ => []

mutual

/-- The names that a statement declares for the body that it stands in, however
    deep within it. -/
def hoistedNames : Node → List Text
  | mk k _ ps =>
    match k with
    | .declaration .var _ => ps.flatMap declaratorNames
    | k => if k.sharesVariables then hoistedList ps else []

/-- The names that some statements declare for the body that they stand in. -/
def hoistedList : List Node → List Text
  | [] => []
  | n :: ns => n.hoistedNames ++ hoistedList ns

end

/-- The names that a parameter introduces. -/
def parameterNames : Node → List Text
  | mk (.param _ _) _ (_ :: p :: _) => p.names
  | mk .restParam _ (p :: _) => p.names
  | _ => []

/-- The names that the parameters of a function introduce. -/
def parametersNames : Node → List Text
  | mk .params _ ps => ps.flatMap parameterNames
  | _ => []

/-- The names that a case declares for the statement that it is a case of. -/
def caseNames : Node → List Text
  | mk .case _ (_ :: ss) => ss.flatMap declaredNames
  | _ => []

/-- The name of a member of an enumeration. -/
def memberNames : Node → List Text
  | mk (.enumMember _) _ (key :: _) => key.keyName?.toList
  | _ => []

/-- The names that a node binds around its part at `i`. -/
def binds : Node → (i : Nat) → List Text
  | mk (.function form) _ [name, _, params, _, _], _ =>
    (if form.declaration then [] else name.names) ++ params.parametersNames
  | mk (.arrow _) _ [_, params, _, _], _ => params.parametersNames
  | mk .functionBody _ ss, _ | mk .staticBlock _ ss, _ | mk .moduleBlock _ ss, _ =>
    ss.flatMap declaredNames ++ hoistedList ss
  | mk .block _ ss, _ => ss.flatMap declaredNames
  | mk .switch _ (_ :: cases), _ + 1 => cases.flatMap caseNames
  | mk .forStatement _ (head :: _), _ | mk .forIn _ (head :: _), _
  | mk (.forOf _) _ (head :: _), _ => head.declaredNames
  | mk .catchClause _ (p :: _), _ => p.names
  | mk (.class _) _ (_ :: name :: _), _ + 1 => name.names
  | mk (.enum _ _) _ members, _ => members.flatMap memberNames
  | _, _ => []

/-- The names that are bound, within a node, around the end of a path. -/
def namesAround (n : Node) : (path : List Nat) → List Text
  | [] => []
  | i :: p => n.binds i ++ (n.parts[i]?.map (·.namesAround p)).getD []

end Node

/-- Whether nodes of this kind take part in introducing names. -/
def Kind.introduces : Kind → Bool
  | .binding _ | .objectPattern | .patternProperty _ _ | .arrayPattern | .defaultPattern | .rest
  | .word _ | .string _ _ | .qualified _ | .declaration _ _ | .declarator _ | .function _ | .arrow _
  | .params | .param _ _ | .restParam | .functionBody | .staticBlock | .moduleBlock | .class _
  | .enum _ _ | .enumMember _ | .namespace_ _ _ | .importDeclaration _ _ _ | .importEquals _
  | .exportDefault => true
  | k => k.sharesVariables

/-- A rewriting of trees that keeps everything that introduces names: a node is
    replaced only by another one that has nothing to do with names being
    introduced. -/
structure KeepsScopes (f : Node → Node) : Prop where
  step (n : Node) : f n = .mk n.kind n.span (n.parts.map f) ∨
    n.kind.introduces = false ∧ (f n).kind.introduces = false

namespace Node

variable {f : Node → Node}

/-- What is nothing for the nodes that do not introduce names, and the same for
    a node and for one with rewritten parts, is kept. -/
theorem kept_of_parts {α : Type} {g : Node → List α} (hf : KeepsScopes f)
    (silent : ∀ n, n.kind.introduces = false → g n = []) {k : Kind} {s : Span} {ps : List Node}
    (parts : g (mk k s (ps.map f)) = g (mk k s ps)) : g (f (mk k s ps)) = g (mk k s ps) := by
  rcases hf.step (mk k s ps) with h | ⟨h, h'⟩
  · rw [h]
    exact parts
  · rw [silent _ h, silent _ h']

/-- What is kept for each of some nodes is kept for all of them together. -/
theorem flatMap_kept {g : Node → List Text} {ns : List Node} (h : ∀ n ∈ ns, g (f n) = g n) :
    (ns.map f).flatMap g = ns.flatMap g := by
  rw [List.flatMap_map]
  rw [List.flatMap_def, List.flatMap_def, List.map_congr_left h]

theorem namesList_eq (ps : List Node) : namesList ps = ps.flatMap names := by
  induction ps with
  | nil => rfl
  | cons p ps ih => rw [namesList, ih, List.flatMap_cons]

theorem hoistedList_eq (ns : List Node) : hoistedList ns = ns.flatMap hoistedNames := by
  induction ns with
  | nil => rfl
  | cons n ns ih => rw [hoistedList, ih, List.flatMap_cons]

theorem names_kept (hf : KeepsScopes f) (n : Node) : (f n).names = n.names := by
  induction n with
  | mk k s ps ih =>
    refine kept_of_parts hf (fun n h => ?_) ?_
    · fun_cases names n
      all_goals first | rfl | cases h
    · have hps : (ps.map f).flatMap names = ps.flatMap names := flatMap_kept ih
      cases k
      case patternProperty =>
        rcases ps with _ | ⟨a, _ | ⟨b, _ | ⟨c, r⟩⟩⟩ <;> simp_all [names]
      case defaultPattern =>
        rcases ps with _ | ⟨a, _ | ⟨b, _ | ⟨c, r⟩⟩⟩ <;> simp_all [names]
      all_goals simp [names, namesList_eq, hps]

theorem declaratorNames_kept (hf : KeepsScopes f) (n : Node) : (f n).declaratorNames = n.declaratorNames := by
  obtain ⟨k, s, ps⟩ := n
  refine kept_of_parts hf (fun n h => ?_) ?_
  · fun_cases declaratorNames n
    all_goals first | rfl | cases h
  · cases k <;> cases ps <;> simp [declaratorNames, names_kept hf]

theorem namespaceNames_kept (hf : KeepsScopes f) (n : Node) :
    (f n).namespaceNames = n.namespaceNames := by
  induction n with
  | mk k s ps ih =>
    refine kept_of_parts hf (fun n h => ?_) ?_
    · fun_cases namespaceNames n
      all_goals first | rfl | cases h
    · cases k
      case qualified => rcases ps with _ | ⟨a, _ | ⟨b, r⟩⟩ <;> simp_all [namespaceNames]
      all_goals simp [namespaceNames]

theorem declaredNames_kept (hf : KeepsScopes f) (n : Node) :
    (f n).declaredNames = n.declaredNames := by
  induction n with
  | mk k s ps ih =>
    refine kept_of_parts hf (fun n h => ?_) ?_
    · fun_cases declaredNames n
      all_goals first | rfl | cases h
    · have hds : (ps.map f).flatMap declaratorNames = ps.flatMap declaratorNames :=
        flatMap_kept fun n _ => declaratorNames_kept hf n
      cases k
      case declaration v _ => cases v <;> simp [declaredNames, hds]
      case exportDeclaration | exportDefault | labeled =>
        rcases ps with _ | ⟨a, _ | ⟨b, r⟩⟩ <;> simp_all [declaredNames]
      case function | «class» | namespace_ =>
        rcases ps with _ | ⟨a, _ | ⟨b, r⟩⟩ <;>
          simp [declaredNames, names_kept hf, namespaceNames_kept hf]
      all_goals simp [declaredNames]

theorem hoistedNames_kept (hf : KeepsScopes f) (n : Node) :
    (f n).hoistedNames = n.hoistedNames := by
  induction n with
  | mk k s ps ih =>
    refine kept_of_parts hf (fun n h => ?_) ?_
    · obtain ⟨k, s, ps⟩ := n
      cases k <;> first | rfl | cases h
    · have hds : (ps.map f).flatMap declaratorNames = ps.flatMap declaratorNames :=
        flatMap_kept fun n _ => declaratorNames_kept hf n
      have hps : (ps.map f).flatMap hoistedNames = ps.flatMap hoistedNames := flatMap_kept ih
      simp only [hoistedNames, hoistedList_eq, hds, hps]

theorem parameterNames_kept (hf : KeepsScopes f) (n : Node) : (f n).parameterNames = n.parameterNames := by
  obtain ⟨k, s, ps⟩ := n
  refine kept_of_parts hf (fun n h => ?_) ?_
  · fun_cases parameterNames n
    all_goals first | rfl | cases h
  · cases k <;> rcases ps with _ | ⟨a, _ | ⟨b, r⟩⟩ <;> simp [parameterNames, names_kept hf]

theorem parametersNames_kept (hf : KeepsScopes f) (n : Node) :
    (f n).parametersNames = n.parametersNames := by
  obtain ⟨k, s, ps⟩ := n
  refine kept_of_parts hf (fun n h => ?_) ?_
  · fun_cases parametersNames n
    all_goals first | rfl | cases h
  · have hps : (ps.map f).flatMap parameterNames = ps.flatMap parameterNames :=
      flatMap_kept fun n _ => parameterNames_kept hf n
    cases k <;> simp [parametersNames, hps]

theorem caseNames_kept (hf : KeepsScopes f) (n : Node) : (f n).caseNames = n.caseNames := by
  obtain ⟨k, s, ps⟩ := n
  refine kept_of_parts hf (fun n h => ?_) ?_
  · fun_cases caseNames n
    all_goals first | rfl | cases h
  · have hss (ss : List Node) : (ss.map f).flatMap declaredNames = ss.flatMap declaredNames :=
      flatMap_kept fun n _ => declaredNames_kept hf n
    cases k <;> cases ps <;> simp [caseNames, hss]

theorem keyName?_kept (hf : KeepsScopes f) (n : Node) :
    (f n).keyName?.toList = n.keyName?.toList := by
  obtain ⟨k, s, ps⟩ := n
  refine kept_of_parts (g := (·.keyName?.toList)) hf (fun n h => ?_) ?_
  · fun_cases keyName? n
    all_goals first | rfl | cases h
  · cases k <;> simp [keyName?]

theorem memberNames_kept (hf : KeepsScopes f) (n : Node) : (f n).memberNames = n.memberNames := by
  obtain ⟨k, s, ps⟩ := n
  refine kept_of_parts hf (fun n h => ?_) ?_
  · fun_cases memberNames n
    all_goals first | rfl | cases h
  · cases k <;> cases ps <;> simp [memberNames, keyName?_kept hf]

/-- A node that does not introduce names binds none. -/
theorem binds_of_silent {n : Node} (h : n.kind.introduces = false) (i : Nat) : n.binds i = [] := by
  fun_cases binds n i
  all_goals first | rfl | cases h

/-- A rewriting that keeps scopes keeps what a node binds. -/
theorem binds_kept (hf : KeepsScopes f) (n : Node) (i : Nat) : (f n).binds i = n.binds i := by
  obtain ⟨k, s, ps⟩ := n
  refine kept_of_parts (g := (·.binds i)) hf (fun n h => binds_of_silent h i) ?_
  have hss (ss : List Node) : (ss.map f).flatMap declaredNames = ss.flatMap declaredNames :=
    flatMap_kept fun n _ => declaredNames_kept hf n
  have hhs (ss : List Node) : (ss.map f).flatMap hoistedNames = ss.flatMap hoistedNames :=
    flatMap_kept fun n _ => hoistedNames_kept hf n
  have hcs (cs : List Node) : (cs.map f).flatMap caseNames = cs.flatMap caseNames :=
    flatMap_kept fun n _ => caseNames_kept hf n
  have hms (ms : List Node) : (ms.map f).flatMap memberNames = ms.flatMap memberNames :=
    flatMap_kept fun n _ => memberNames_kept hf n
  cases k
  case function =>
    rcases ps with _ | ⟨a, _ | ⟨b, _ | ⟨c, _ | ⟨d, _ | ⟨e, _ | ⟨x, r⟩⟩⟩⟩⟩⟩ <;>
      simp [binds, names_kept hf, parametersNames_kept hf]
  case arrow =>
    rcases ps with _ | ⟨a, _ | ⟨b, _ | ⟨c, _ | ⟨d, _ | ⟨e, r⟩⟩⟩⟩⟩ <;>
      simp [binds, parametersNames_kept hf]
  case switch | «class» =>
    rcases ps with _ | ⟨a, _ | ⟨b, r⟩⟩ <;> cases i <;>
      simp [binds, names_kept hf, caseNames_kept hf, hcs]
  case forStatement | forIn | forOf | catchClause =>
    cases ps <;> simp [binds, declaredNames_kept hf, names_kept hf]
  all_goals simp [binds, hoistedList_eq, hss, hhs, hms]

end Node

end Unhook
