import Unhook.Compile
import Unhook.Proofs.Reactive
import Unhook.Proofs.Scope

/-!
# Calls of setters

A call of a setter becomes an assignment to the value of its cell, wherever it
stands. The value is declared in the body of the component, and the call may be
deep within functions and blocks that bind names of their own: if one of them
binds the name of the value, the assignment is *captured*, and it is that other
variable that is set.

Calls are rewritten by a walk that also collects what it finds. The tree alone
is `Node.assigned`; a node of it is found at the `Node.image` of the path that
led to it before, and what is bound around the two places is the same
(`Node.namesAround_image`).

* `Component.extractState_reacts`: what the step makes of each statement;
* `Component.setter_assignment_captured_iff`: an assignment is captured if and
  only if the name of the value is bound around the call.
-/

namespace Unhook

namespace Node

variable (setters : List (Text × Text)) {n : Node} {p q : List Nat} {v : Text}

/-- The value that a call in expression position sets, if it calls a setter. -/
def sets? : Node → Option Text
  | mk (.call ⟨_, false⟩ _) _ (callee :: _ :: _) =>
    callee.identifier?.bind fun n => setters.lookup n
  | _ => none

/-- A tree in which calls of setters are assignments. -/
def assigned (n : Node) : Node := (n.unset setters false {}).1

variable {setters}

theorem unsetList_fst {ns : List Node}
    (h : ∀ n ∈ ns, ∀ nested u, (n.unset setters nested u).1 = n.assigned setters)
    (nested : Bool) (u : SetterUse) :
    (unsetList setters nested ns u).1 = ns.map (assigned setters) := by
  induction ns generalizing u with
  | nil => rfl
  | cons n ns ih =>
    have hns := ih (fun m hm => h m (List.mem_cons_of_mem _ hm)) (n.unset setters nested u).2
    rw [List.map_cons, ← h n List.mem_cons_self nested u, ← hns]
    rfl

/-- What a node becomes, given what its parts become. -/
theorem unset_fst_of_parts {k : Kind} {s : Span} {ps : List Node}
    (h : ∀ n ∈ ps, ∀ nested u, (n.unset setters nested u).1 = n.assigned setters)
    (nested : Bool) (u : SetterUse) :
    ((mk k s ps).unset setters nested u).1 =
      match (mk k s ps).sets? setters with
      | some v => setterCall v ((ps.drop 2).map (assigned setters))
      | none => mk k s (ps.map (assigned setters)) := by
  unfold unset
  split
  · next o pure callee types arguments =>
    have hargs : ∀ n ∈ arguments, ∀ nested u, (n.unset setters nested u).1 = n.assigned setters :=
      fun n hn => h n (by simp [hn])
    simp only [sets?]
    cases callee.identifier?.bind fun n => setters.lookup n with
    | none => simp [unsetList_fst hargs, h]
    | some v => simp [unsetList_fst hargs]
  · next hk =>
    have hv : (mk k s ps).sets? setters = none := by
      unfold sets?
      split
      · next h => cases h; exact (hk _ _ _ _ _ rfl rfl).elim
      · rfl
    rw [hv]
    cases k.reference? <;> exact congrArg (mk k s) (unsetList_fst h _ _)

/-- What a tree becomes does not depend on what has been found before it. -/
theorem unset_fst (n : Node) (nested : Bool) (u : SetterUse) :
    (n.unset setters nested u).1 = n.assigned setters := by
  induction n generalizing nested u with
  | mk k s ps ih => rw [assigned, unset_fst_of_parts ih, unset_fst_of_parts ih]

/-- What a call of a setter becomes is an assignment to the value. -/
theorem exists_setterCall_eq (v : Text) (arguments : List Node) : ∃ sp sp' e,
    setterCall v arguments = mk (.assign none) sp [mk (.target v) sp' [], e] := by
  unfold setterCall
  split
  · exact ⟨_, _, _, rfl⟩
  · dsimp only
    split <;> exact ⟨_, _, _, rfl⟩

/-- The call of a setter becomes an assignment. -/
theorem assigned_of_sets (h : n.sets? setters = some v) :
    n.assigned setters = setterCall v (n.arguments.map (assigned setters)) := by
  obtain ⟨k, s, ps⟩ := n
  rw [assigned, unset_fst_of_parts fun n _ => unset_fst n, h]
  rfl

/-- Any other node keeps its kind. -/
theorem assigned_of_not_sets (h : n.sets? setters = none) :
    n.assigned setters = mk n.kind n.span (n.parts.map (assigned setters)) := by
  obtain ⟨k, s, ps⟩ := n
  rw [assigned, unset_fst_of_parts fun n _ => unset_fst n, h]
  rfl

theorem kind_of_sets (h : n.sets? setters = some v) : ∃ o pure, n.kind = .call ⟨o, false⟩ pure := by
  unfold sets? at h
  split at h
  · exact ⟨_, _, rfl⟩
  · cases h

theorem kind_setterCall (v : Text) (arguments : List Node) :
    (setterCall v arguments).kind = .assign none := by
  unfold setterCall
  split
  · rfl
  · split <;> rfl

/-- Turning calls of setters into assignments keeps scopes. -/
theorem keepsScopes_assigned : KeepsScopes (assigned setters) where
  step n := by
    cases h : n.sets? setters with
    | none => exact .inl (assigned_of_not_sets h)
    | some v =>
      obtain ⟨o, pure, hk⟩ := kind_of_sets h
      rw [assigned_of_sets h, kind_setterCall, hk]
      exact .inr ⟨rfl, rfl⟩

variable (setters) in
/-- A node keeps its kind, or is a call that becomes an assignment. -/
theorem kind_assigned (n : Node) :
    (n.assigned setters).kind = n.kind ∨
      (∃ o pure, n.kind = .call ⟨o, false⟩ pure) ∧ (n.assigned setters).kind = .assign none := by
  cases h : n.sets? setters with
  | none => exact .inl (by rw [assigned_of_not_sets h, kind_mk])
  | some v => exact .inr ⟨kind_of_sets h, by rw [assigned_of_sets h, kind_setterCall]⟩

theorem isFunction_assigned (n : Node) : (n.assigned setters).isFunction = n.isFunction := by
  rcases kind_assigned setters n with h | ⟨⟨o, pure, h⟩, h'⟩
  · simp only [isFunction, h]
  · simp only [isFunction, h, h']

theorem first?_cons (a : Node) (as : List Node) :
    first? (a :: as) = if a.kind = .spread then none else some a := by
  obtain ⟨k, s, ps⟩ := a
  by_cases hk : k = .spread
  · subst hk
    rfl
  · rw [kind_mk, if_neg hk, first?]
    exact fun _ _ h => hk (Node.mk.inj h).1

theorem first?_map_assigned (arguments : List Node) :
    first? (arguments.map (assigned setters)) = (first? arguments).map (assigned setters) := by
  cases arguments with
  | nil => rfl
  | cons a as =>
    rw [List.map_cons, first?_cons, first?_cons]
    rcases kind_assigned setters a with h | ⟨⟨o, pure, h⟩, h'⟩
    · rw [h]
      split <;> rfl
    · rw [h, h']
      rfl

/-! ### Places -/

variable (setters) in
/-- Where what stands at the end of a path is found after calls of setters have
    become assignments. Of such a call only the first argument is kept: it is
    the assigned value, or the function that is called for it. -/
def image (n : Node) : (path : List Nat) → Option (List Nat)
  | [] => some []
  | i :: p =>
    match n.parts[i]? with
    | none => none
    | some m =>
      match n.sets? setters with
      | none => (m.image p).map (i :: ·)
      | some _ =>
        if i = 2 ∧ m.kind ≠ .spread then
          (m.image p).map fun q => if m.isFunction then 1 :: 0 :: q else 1 :: q
        else none

/-- A path that has an image leads into a part. The part keeps its position, or
    it is the first argument of a setter and not spread. -/
theorem image_cons {i : Nat} (h : n.image setters (i :: p) = some q) :
    ∃ m q', n.parts[i]? = some m ∧ m.image setters p = some q' ∧
      (n.sets? setters = none ∧ q = i :: q' ∨
        ∃ v, n.sets? setters = some v ∧ i = 2 ∧ m.kind ≠ .spread ∧
          q = if m.isFunction then 1 :: 0 :: q' else 1 :: q') := by
  rw [image] at h
  split at h
  · cases h
  · next m hm =>
    split at h
    · next hn =>
      obtain ⟨q', hq', rfl⟩ := Option.map_eq_some_iff.1 h
      exact ⟨m, q', hm, hq', .inl ⟨hn, rfl⟩⟩
    · next v hv =>
      split at h
      · next hi =>
        obtain ⟨q', hq', rfl⟩ := Option.map_eq_some_iff.1 h
        exact ⟨m, q', hm, hq', .inr ⟨v, hv, hi.1, hi.2, rfl⟩⟩
      · cases h

/-- The first argument of a setter, unless it is spread, is what is assigned, or
    what is called for it. -/
theorem assigned_of_argument {n m : Node} (hv : n.sets? setters = some v)
    (hm : n.parts[2]? = some m) (hs : m.kind ≠ .spread) :
    ∃ s, n.assigned setters = .assigning v
      (if m.isFunction then .calling (m.assigned setters) [.reference v s] s
        else m.assigned setters) s := by
  have hfirst : first? n.arguments = some m := by
    rw [arguments, List.drop_eq_getElem_cons (List.getElem?_eq_some_iff.1 hm).1,
      (List.getElem?_eq_some_iff.1 hm).2, first?_cons, if_neg hs]
  rw [assigned_of_sets hv, setterCall, first?_map_assigned, hfirst]
  simp only [Option.map_some, isFunction_assigned]
  split <;> exact ⟨_, rfl⟩

/-- What stands at the end of a path stands, rewritten, at the end of its image. -/
theorem at?_image {n m : Node} (hq : n.image setters p = some q)
    (hm : n.at? p = some m) : (n.assigned setters).at? q = some (m.assigned setters) := by
  induction p generalizing n q with
  | nil =>
    cases hq
    cases hm
    rfl
  | cons i p ih =>
    obtain ⟨a, q', ha, hq', ⟨hn, rfl⟩ | ⟨v, hv, rfl, hs, rfl⟩⟩ := image_cons hq
    · have hm' := ih hq' (by simpa [ha] using hm)
      simpa [assigned_of_not_sets hn, ha] using hm'
    · have hm' := ih hq' (by simpa [ha] using hm)
      obtain ⟨s, hs⟩ := assigned_of_argument hv ha hs
      rw [hs]
      split <;> simpa [assigning, calling] using hm'

/-- The names that are bound around a place are the same before and after. -/
theorem namesAround_image (hq : n.image setters p = some q) :
    (n.assigned setters).namesAround q = n.namesAround p := by
  induction p generalizing n q with
  | nil =>
    cases hq
    rfl
  | cons i p ih =>
    obtain ⟨a, q', ha, hq', ⟨hn, rfl⟩ | ⟨v, hv, rfl, hs, rfl⟩⟩ := image_cons hq
    · rw [namesAround, namesAround, binds_kept keepsScopes_assigned, assigned_of_not_sets hn]
      simp [ha, ih hq']
    · -- Neither the call nor what replaces it binds anything.
      obtain ⟨o, pure, hk⟩ := kind_of_sets hv
      obtain ⟨s, hs⟩ := assigned_of_argument hv ha hs
      rw [hs, namesAround,
        binds_of_silent (n := n) (by rw [hk]; rfl), ha]
      split <;> simp [namesAround, assigning, calling, binds, ih hq']

/-- Without setters nothing is assigned. -/
theorem assigned_nil (n : Node) : n.assigned [] = n := by
  induction n with
  | mk k s ps ih =>
    have hn : (mk k s ps).sets? [] = none := by
      unfold sets?
      split
      · exact Option.bind_eq_none_iff.2 fun _ _ => rfl
      · rfl
    rw [assigned_of_not_sets hn, parts_mk, List.map_congr_left ih, List.map_id']
    rfl

end Node

namespace Component

variable {typescript : Bool} {c c' d : Component} {is : List Nat} {i j : Nat}

/-! ### State declarations -/

/-- A statement is left alone, or it declares state: then it becomes a variable,
    which is exempt, and its setter is known. -/
theorem extractCell_eq_ok (h : c.extractCell typescript i = .ok d) :
    (d = c ∧ ∀ s, c.body[i]? = some s → StateDeclaration.ofStatement? s = .ok none) ∨
    ∃ s sd t, c.body[i]? = some s ∧ StateDeclaration.ofStatement? s = .ok (some sd) ∧
      sd.declaration typescript = .ok t ∧
      d = { c with
        body := c.body.set i t
        exempt := c.exempt ++ [i]
        setters := (sd.setter, sd.value) :: c.setters
        cells := c.cells ++ [sd.cell i] }.track [sd.value] := by
  unfold extractCell at h
  split at h
  · next hs =>
    cases h
    exact .inl ⟨rfl, fun s hs' => by rw [hs] at hs'; cases hs'⟩
  · next s hs =>
    obtain ⟨sd?, hsd, h⟩ := of_bind_eq_ok h
    cases sd? with
    | none =>
      cases h
      refine .inl ⟨rfl, fun s' hs' => ?_⟩
      cases hs.symm.trans hs'
      exact hsd
    | some sd =>
      obtain ⟨t, ht, h⟩ := of_bind_eq_ok h
      cases h
      exact .inr ⟨s, sd, t, hs, hsd, ht, rfl⟩

theorem extractCell_frame (h : c.extractCell typescript i = .ok d) (hij : i ≠ j) :
    d.body[j]? = c.body[j]? := by
  obtain ⟨rfl, -⟩ | ⟨-, -, t, -, -, -, rfl⟩ := extractCell_eq_ok h
  · rfl
  · exact List.getElem?_set_ne hij

/-- What looking at one statement keeps is kept by looking at them all. -/
theorem extractCells_keeps {P : Component → Prop}
    (hP : ∀ {c d : Component} {i}, i ∈ is → c.extractCell typescript i = .ok d → P c → P d)
    (h : c.extractCells typescript is = .ok d) (hc : P c) : P d := by
  induction is generalizing c with
  | nil =>
    cases h
    exact hc
  | cons i is ih =>
    obtain ⟨e, he, h⟩ := of_bind_eq_ok h
    exact ih (fun hi => hP (List.mem_cons_of_mem _ hi)) h (hP List.mem_cons_self he hc)

/-- Statements other than those that are looked at stay. -/
theorem extractCells_frame (h : c.extractCells typescript is = .ok d) (hj : j ∉ is) :
    d.body[j]? = c.body[j]? := by
  refine extractCells_keeps (P := fun e => e.body[j]? = c.body[j]?) (fun hi he hc => ?_) h rfl
  exact (extractCell_frame he (ne_of_mem_of_not_mem hi hj)).trans hc

/-- The cells that are found have their setters in the table, and each is
    declared by a statement of its own. -/
theorem extractCells_cells (hn : is.Nodup) (h : c.extractCells typescript is = .ok d) :
    ∃ new : List Cell, d.cells = c.cells ++ new ∧
      d.setters = (new.map fun k => (k.setter, k.value)).reverse ++ c.setters ∧
      ∀ k ∈ new, k.declaration ∈ is ∧ ∃ (sd : StateDeclaration) (s : Node),
        sd.cell k.declaration = k ∧ sd.declaration typescript = .ok s ∧
          d.body[k.declaration]? = some s := by
  induction is generalizing c with
  | nil =>
    cases h
    exact ⟨[], by simp, rfl, fun _ hk => absurd hk List.not_mem_nil⟩
  | cons i is ih =>
    rw [List.nodup_cons] at hn
    obtain ⟨e, he, h⟩ := of_bind_eq_ok h
    obtain ⟨new, hcells, hsetters, hnew⟩ := ih hn.2 h
    have hnew' : ∀ k ∈ new, k.declaration ∈ i :: is ∧ _ :=
      fun k hk => ⟨List.mem_cons_of_mem _ (hnew k hk).1, (hnew k hk).2⟩
    obtain ⟨rfl, -⟩ | ⟨s, sd, t, hs, -, ht, rfl⟩ := extractCell_eq_ok he
    · exact ⟨new, hcells, hsetters, hnew'⟩
    · refine ⟨sd.cell i :: new, by simp [hcells, track], ?_, ?_⟩
      · simp [hsetters, track, StateDeclaration.cell]
      · intro k hk
        rcases List.mem_cons.1 hk with rfl | hk
        · -- The statements that are looked at later are other ones.
          refine ⟨List.mem_cons_self, sd, t, rfl, ht, (extractCells_frame h hn.1).trans ?_⟩
          exact List.getElem?_set_self (List.getElem?_eq_some_iff.1 hs).1
        · exact hnew' k hk

/-! ### The step -/

theorem unsetBody_fst (setters : List (Text × Text)) (i : Nat) (ss : List Node)
    (escaped : List Text) : (unsetBody setters i ss escaped).1 = ss.map (Node.assigned setters) := by
  induction ss generalizing i escaped with
  | nil => rfl
  | cons s ss ih =>
    rw [List.map_cons, ← Node.unset_fst s false { escaped },
      ← ih (i + 1) (s.unset setters false { escaped }).2.escaped]
    rfl

theorem settleAll_keeps {P : Component → Prop}
    (hP : ∀ {c c' : Component} {i bound}, c.settle typescript i = .ok (c', bound) → P c → P c')
    (h : c.settleAll typescript is = .ok c') (hc : P c) : P c' := by
  induction is generalizing c with
  | nil =>
    cases h
    exact hc
  | cons i is ih =>
    obtain ⟨⟨d, bound⟩, hd, h⟩ := of_bind_eq_ok h
    exact ih h (hP hd hc)

/-- The calls of setters are rewritten, and some of the statements that had one are made
    reactive. -/
theorem unsetCalls_eq_ok (h : c.unsetCalls typescript = .ok c') : ∃ is synthesized,
    is ⊆ (unsetBody c.setters 0 c.body []).2.1 ∧
    settleAll typescript is
      { c with body := c.body.map (Node.assigned c.setters), synthesized } = .ok c' := by
  unfold unsetCalls at h
  split at h
  · next hs =>
    cases h
    have hbody : c.body.map (Node.assigned c.setters) = c.body := by
      rw [List.isEmpty_iff.1 hs, List.map_congr_left fun n _ => Node.assigned_nil n, List.map_id']
    exact ⟨[], c.synthesized, List.nil_subset _, by rw [hbody]; rfl⟩
  · rw [← unsetBody_fst c.setters 0 c.body []]
    exact ⟨_, _, fun _ hi => (List.mem_filter.1 hi).1, h⟩

theorem unsetCalls_reacts (h : c.unsetCalls typescript = .ok c') :
    c'.Reacts typescript (c.body.map (Node.assigned c.setters)) := by
  obtain ⟨is, ss, -, h⟩ := unsetCalls_eq_ok h
  exact settleAll_keeps settle_reacts h fun _ _ => .inl

/-- Extracting state comes in four parts. -/
theorem extractState_eq_ok (h : c.extractState typescript = .ok c') :
    ∃ d e n, c.extractCells typescript (List.range c.body.length) = .ok d ∧
      Node.findList? (fun n => n.hook? = some .state) d.body = none ∧
      d.unsetCalls typescript = .ok e ∧ e.propagate typescript = .ok (c', n) := by
  obtain ⟨d, hd, h⟩ := of_bind_eq_ok h
  split at h
  · cases h
  · next hfind =>
    obtain ⟨e, he, h⟩ := of_bind_eq_ok h
    obtain ⟨⟨f, n⟩, hf, h⟩ := of_bind_eq_ok h
    cases h
    exact ⟨d, e, n, hd, hfind, he, hf⟩

/-- Once state is declared by variables, every statement is the one in which
    calls of setters are assignments, or that one made reactive. -/
theorem extractState_reacts (h : c.extractState typescript = .ok c') :
    ∃ d, c.extractCells typescript (List.range c.body.length) = .ok d ∧
      c'.Reacts typescript (d.body.map (Node.assigned d.setters)) := by
  obtain ⟨d, e, n, hd, -, he, h⟩ := extractState_eq_ok h
  exact ⟨d, hd, propagate_reacts h (unsetCalls_reacts he)⟩

/-- Turning state into variables changes the body, and what is known of it,
    only. -/
theorem extractState_sameFrame (h : c.extractState typescript = .ok c') : SameFrame c c' := by
  obtain ⟨d, e, n, hd, -, he, h⟩ := extractState_eq_ok h
  obtain ⟨is, ss, -, he⟩ := unsetCalls_eq_ok he
  have hcells : SameFrame c d := by
    refine extractCells_keeps (P := SameFrame c) (fun _ he hc => hc.trans ?_) hd (.refl c)
    rcases extractCell_eq_ok he with ⟨rfl, -⟩ | ⟨-, -, -, -, -, -, rfl⟩ <;> exact ⟨rfl, rfl, rfl, rfl⟩
  have hcalls : SameFrame d e :=
    settleAll_keeps (P := SameFrame d) (fun h hc => hc.trans (settle_sameFrame h)) he
      ⟨rfl, rfl, rfl, rfl⟩
  exact (hcells.trans hcalls).trans (propagate_sameFrame h)

/-- What a call of a setter becomes is an assignment to the value of the cell, and
    it stands where names denote what they denoted at the call. So the assigned
    name is that of the cell unless, in the source, something between the
    statement of the body and the call binds this name again: then, and only
    then, the assignment is captured.

    The calls that are looked at are those in the component `d` with state
    declared by variables. A call that is itself in a dropped argument of
    another setter has no image. -/
theorem setter_assignment_captured_iff (h : c.extractState typescript = .ok c') :
    ∃ d, c.extractCells typescript (List.range c.body.length) = .ok d ∧
      (∃ new : List Cell, d.cells = c.cells ++ new ∧
        d.setters = (new.map fun k => (k.setter, k.value)).reverse ++ c.setters ∧
        ∀ k ∈ new, ∃ (sd : StateDeclaration) (s : Node), sd.cell k.declaration = k ∧
          sd.declaration typescript = .ok s ∧ d.body[k.declaration]? = some s) ∧
      c'.Reacts typescript (d.body.map (Node.assigned d.setters)) ∧
      ∀ s ∈ d.body, ∀ p q n v, s.at? p = some n → n.sets? d.setters = some v →
        s.image d.setters p = some q →
        (s.assigned d.setters).at? q =
          some (setterCall v (n.arguments.map (Node.assigned d.setters))) ∧
        (∃ sp sp' e, (s.assigned d.setters).at? q =
          some (.mk (.assign none) sp [.mk (.target v) sp' [], e])) ∧
        (v ∈ (s.assigned d.setters).namesAround q ↔ v ∈ s.namesAround p) := by
  obtain ⟨d, hd, hc'⟩ := extractState_reacts h
  obtain ⟨new, hcells, hsetters, hnew⟩ := extractCells_cells List.nodup_range hd
  refine ⟨d, hd, ⟨new, hcells, hsetters, fun k hk => (hnew k hk).2⟩, hc', ?_⟩
  intro s _ p q n v hn hv hq
  have hat := Node.at?_image hq hn
  rw [Node.assigned_of_sets hv] at hat
  obtain ⟨sp, sp', e, he⟩ := Node.exists_setterCall_eq v (n.arguments.map (Node.assigned d.setters))
  refine ⟨hat, ⟨sp, sp', e, hat.trans (congrArg some he)⟩, ?_⟩
  rw [Node.namesAround_image hq]

/-- A counter that is set in a handler, by a function of the value. -/
def counterSource : Text :=
  "export default () => \x7b
    const [n, setN] = useState(0);
    return <button onClick=\x7be => setN(m => m + e.detail)\x7d>\x7bn\x7d</button>;
  \x7d;"

theorem setter_assignment_not_captured_in_handler :
    ∃ c c' d s n, compileThrough {} [.props] counterSource = .ok c ∧ c.extractState false = .ok c' ∧
      c.extractCells false (List.range c.body.length) = .ok d ∧ s ∈ d.body ∧
      s.at? [0, 0, 2, 0, 0, 3] = some n ∧ n.sets? d.setters = some ("n" : Text) ∧
      (s.assigned d.setters).at? [0, 0, 2, 0, 0, 3] =
        some (setterCall "n" (n.arguments.map (Node.assigned d.setters))) ∧
      ("n" : Text) ∉ (s.assigned d.setters).namesAround [0, 0, 2, 0, 0, 3] := by
  have hsource : ((compileThrough {} [.props] counterSource).toOption.bind fun c =>
      (c.extractState false).toOption.bind fun _ =>
      (c.extractCells false (List.range c.body.length)).toOption.bind fun d =>
      d.body[1]?.bind fun s => (s.at? [0, 0, 2, 0, 0, 3]).map fun n =>
        (n.sets? d.setters, s.image d.setters [0, 0, 2, 0, 0, 3],
          s.namesAround [0, 0, 2, 0, 0, 3])) =
      some (some ("n" : Text), some [0, 0, 2, 0, 0, 3], [("e" : Text)]) := by
    rw [(by apply String.toList_ofList : counterSource = _)]
    decide +kernel
  obtain ⟨c, hc, hsource⟩ := of_toOption_bind hsource
  obtain ⟨c', hc', hsource⟩ := of_toOption_bind hsource
  obtain ⟨d, hd, hsource⟩ := of_toOption_bind hsource
  obtain ⟨s, hs, hsource⟩ := Option.bind_eq_some_iff.1 hsource
  obtain ⟨n, hn, hsource⟩ := Option.map_eq_some_iff.1 hsource
  obtain ⟨hv, hq, hnames⟩ : _ ∧ _ ∧ _ := by simpa only [Prod.mk.injEq] using hsource
  obtain ⟨e, he, _, _, hcalls⟩ := setter_assignment_captured_iff hc'
  cases he.symm.trans hd
  have hs := List.mem_of_getElem? hs
  obtain ⟨hassigned, -, hcaptured⟩ := hcalls s hs _ _ n _ hn hv hq
  refine ⟨c, c', d, s, n, hc, hc', hd, hs, hn, hv, hassigned, ?_⟩
  rw [hcaptured, hnames]
  decide

/-- The parameter of a handler that has the name of the state captures the
    assignment. -/
theorem handler_parameter_captures_assignment :
    ((compileThrough {} [.props, .state] "export default () => \x7b
        const [n, setN] = useState(0); return <b onClick=\x7bn => setN(n)\x7d/>; \x7d;"
        ).toOption.bind fun c =>
      c.body[1]?.bind fun s => (s.at? [0, 0, 2, 0, 0, 3]).map fun e =>
        (e.assignment?.map (·.1), s.namesAround [0, 0, 2, 0, 0, 3])) =
      some (some ("n" : Text), [("n" : Text)]) := by
  conv =>
    enter [1, 1, 1, 3]
    apply String.toList_ofList
  decide +kernel

end Component

end Unhook
