import Unhook.Proofs.Untouched

/-!
# Which holes are filled

A hole that holds a markup variable is filled with the value of the variable, in
which holes are filled in turn, except those of a variable within whose value they
stand. Values may be larger than the trees that they are put into, so nothing gets
smaller on this way; it ends since there are only so many variables to stand within
(`MarkupTable.Fills`). What is left are holes of variables that are shown within
themselves.

The value of a variable is markup or the name of a block. Such a name is put into a
hole as it is, and it is not looked up again. It is for this that a hole can be left
that holds a variable which is not shown within itself, when the variable has the name
of a block.

* `MarkupTable.Fills`: filling holes, as a relation between trees;
* `MarkupTable.fills_iff`: a tree is filled in one way, which is that of
  `Node.substitute`;
* `MarkupTable.Fills.mem_holeNames`: the holes that are left;
* `Component.filling_complete`: all that filling does.
-/

namespace Unhook

namespace Node

variable {r : Text → Option Node} {n : Node}

/-! ### Filling, node by node -/

/-- A node with its holes filled, which may be a part of markup. -/
def filled (r : Text → Option Node) (inMarkup : Bool) (n : Node) : Node :=
  if inMarkup then fillPart r n else n.substitute r

theorem eq_of_holeName? {x : Text} (h : n.holeName? = some x) :
    ∃ s e, n = mk .container s [e] ∧ e.identifier? = some x := by
  unfold holeName? at h
  split at h
  · exact ⟨_, _, rfl, h⟩
  · cases h

/-- A hole whose name is given a value holds it, or is replaced by it. -/
theorem filled_hole {n v : Node} (inMarkup : Bool) (h : n.holeName?.bind r = some v) :
    filled r inMarkup n = if inMarkup then inHole n.span v else mk .container n.span [v] := by
  obtain ⟨x, hx, hv⟩ := Option.bind_eq_some_iff.1 h
  obtain ⟨s, e, rfl, he⟩ := eq_of_holeName? hx
  cases inMarkup <;> simp [filled, fillPart, substitute, he, hv]

/-- Any other node has the holes of its parts filled. -/
theorem filled_parts (inMarkup : Bool) (h : n.holeName?.bind r = none) :
    filled r inMarkup n = mk n.kind n.span (n.parts.map (filled r n.isMarkup)) := by
  have hpart : fillPart r n = n.substitute r := by
    unfold fillPart
    split
    · next s e => rw [substitute_container h, show e.identifier?.bind r = none from h]
    · rfl
  have hsubstitute : n.substitute r = mk n.kind n.span (n.parts.map (filled r n.isMarkup)) := by
    obtain ⟨k, s, ps⟩ := n
    have hmap : ps.map (filled r false) = ps.map (substitute r) := rfl
    unfold substitute
    split
    case h_1 | h_2 => exact congrArg _ (substituteChildren_eq r ps)
    case h_3 e =>
      rw [show e.identifier?.bind r = none from h]
      rfl
    case h_4 hel hfr _ =>
      have hmarkup : (mk k s ps).isMarkup = false := by
        cases k
        case element => exact (hel rfl).elim
        case fragment => exact (hfr rfl).elim
        all_goals rfl
      rw [hmarkup, substituteList_eq]
      rfl
  cases inMarkup
  · exact hsubstitute
  · exact hpart.trans hsubstitute

theorem mem_holeNames_iff {x : Text} :
    x ∈ n.holeNames ↔ n.holeName? = some x ∨ ∃ p ∈ n.parts, x ∈ p.holeNames := by
  obtain ⟨k, s, ps⟩ := n
  rw [holeNames, holeNamesList_eq, List.mem_append, Option.mem_toList, List.mem_flatMap]
  rfl

/-- Where no name is given a value, nothing is filled. -/
theorem filled_of_holeNames (inMarkup : Bool) (h : ∀ x ∈ n.holeNames, r x = none) :
    filled r inMarkup n = n := by
  induction n generalizing inMarkup with
  | mk k s ps ih =>
    have hself : (mk k s ps).holeName?.bind r = none :=
      Option.bind_eq_none_iff.2 fun x hx => h x (mem_holeNames_self hx)
    rw [filled_parts inMarkup hself]
    refine congrArg (mk k s) ((List.map_congr_left fun p hp => ?_).trans (List.map_id ps))
    exact ih p hp _ fun x hx => h x (mem_holeNames_of_part hp hx)

end Node

namespace MarkupTable

variable {active : List Text} {inMarkup : Bool} {fuel : Nat} {n m : Node}

open Node

variable {t : MarkupTable}

/-! ### Filling as a relation -/

/-- Filling the holes of a tree that stands within the values of the variables
    `active`, and may be a part of markup. A hole that holds another variable is
    filled with the value of that variable, whose holes are filled within that value as
    well; any other node is kept, and the holes of its parts are filled. -/
inductive Fills (t : MarkupTable) : (active : List Text) → (inMarkup : Bool) → Node → Node → Prop
  | hole {active : List Text} {inMarkup : Bool} {n v w : Node} {x : Text}
      (hx : n.holeName? = some x) (hactive : x ∉ active) (hv : t.value? x = some v)
      (h : Fills t (x :: active) false v w) :
      Fills t active inMarkup n
        (if inMarkup then inHole n.span w else .mk .container n.span [w])
  | parts {active : List Text} {inMarkup : Bool} {n : Node} {qs : List Node}
      (hn : ∀ x, n.holeName? = some x → x ∈ active ∨ t.value? x = none)
      (hlength : qs.length = n.parts.length)
      (h : ∀ (i : Nat) (p q : Node), n.parts[i]? = some p → qs[i]? = some q →
        Fills t active n.isMarkup p q) :
      Fills t active inMarkup n (.mk n.kind n.span qs)

theorem eq_map_of_getElem? {α β : Type} {f : α → β} {as : List α} {bs : List β}
    (hlength : bs.length = as.length)
    (h : ∀ (i : Nat) (a : α) (b : β), as[i]? = some a → bs[i]? = some b → b = f a) :
    bs = as.map f := by
  refine List.ext_getElem (by rw [hlength, List.length_map]) fun i hi hi' => ?_
  rw [List.length_map] at hi'
  rw [List.getElem_map]
  exact h i _ _ (List.getElem?_eq_getElem hi') (List.getElem?_eq_getElem hi)

theorem resolveWithin_of_mem {y : Text} (h : y ∈ active) :
    t.resolveWithin fuel active y = none := by
  cases fuel with
  | zero => rfl
  | succ fuel => simp [MarkupTable.resolveWithin, h]

/-- A tree is filled in one way, and with the given fuel that is found. -/
theorem fills_iff (h : t.Pending fuel active n) (inMarkup : Bool) (m : Node) :
    t.Fills active inMarkup n m ↔ m = filled (t.resolveWithin fuel active) inMarkup n := by
  -- Entering a value takes fuel, and going on to a part takes part of the tree.
  induction fuel using Nat.strongRecOn generalizing active n inMarkup m with
  | ind fuel ihfuel =>
    induction n generalizing inMarkup m with
    | mk k s ps ih =>
      by_cases hopen : ∃ x v, (mk k s ps).holeName? = some x ∧ x ∉ active ∧ t.value? x = some v
      · obtain ⟨x, v, hx, hactive, hv⟩ := hopen
        obtain ⟨fuel', rfl, hfill, hpending⟩ := h.enter (mem_holeNames_self hx) hactive hv
        rw [filled_hole inMarkup (by rw [hx]; exact hfill)]
        have hvalue := ihfuel fuel' (Nat.lt_succ_self _) hpending false
        constructor
        · intro hm
          cases hm with
          | hole hx' _ hv' hw =>
            cases hx.symm.trans hx'
            cases hv.symm.trans hv'
            rw [(hvalue _).1 hw]
            rfl
          | parts hn _ _ =>
            rcases hn x hx with ha | hnone
            · exact (hactive ha).elim
            · cases hnone.symm.trans hv
        · rintro rfl
          exact .hole hx hactive hv ((hvalue _).2 rfl)
      · have hclosed (x : Text) (hx : (mk k s ps).holeName? = some x) :
            x ∈ active ∨ t.value? x = none := by
          by_cases ha : x ∈ active
          · exact .inl ha
          · refine .inr (Option.eq_none_iff_forall_not_mem.2 fun v hv => hopen ⟨x, v, hx, ha, hv⟩)
        have hnone : (mk k s ps).holeName?.bind (t.resolveWithin fuel active) = none := by
          refine Option.bind_eq_none_iff.2 fun x hx => ?_
          rcases hclosed x hx with ha | hv
          · exact resolveWithin_of_mem ha
          · exact resolveWithin_eq_none hv
        have hpart (i : Nat) (p q : Node) (hp : ps[i]? = some p) :
            t.Fills active (mk k s ps).isMarkup p q ↔
              q = filled (t.resolveWithin fuel active) (mk k s ps).isMarkup p :=
          have hp := List.mem_of_getElem? hp
          ih p hp (h.part hp) _ q
        rw [filled_parts inMarkup hnone]
        constructor
        · intro hm
          cases hm with
          | hole hx ha hv _ => exact (hopen ⟨_, _, hx, ha, hv⟩).elim
          | parts _ hlength hqs =>
            exact congrArg (mk k s)
              (eq_map_of_getElem? hlength fun i p q hp hq => (hpart i p q hp).1 (hqs i p q hp hq))
        · rintro rfl
          refine .parts hclosed (List.length_map _) fun i p q hp hq => (hpart i p q hp).2 ?_
          rw [List.getElem?_map, hp] at hq
          exact (Option.some.inj hq).symm

theorem pending_nil (t : MarkupTable) (n : Node) : t.Pending (t.length + 1) [] n :=
  ⟨rfl, List.nodup_nil, List.nil_subset _, fun _ ha => (List.not_mem_nil ha).elim⟩

/-! ### Holes that are left -/

/-- Whether a variable has the name `x` itself for its value. -/
def Gives (t : MarkupTable) (x : Text) : Prop := ∃ y v, t.value? y = some v ∧ v.identifier? = some x

theorem Fills.identifier? (h : t.Fills active false n m) : m.identifier? = n.identifier? := by
  cases h with
  | hole hx _ _ _ =>
    obtain ⟨s, e, rfl, -⟩ := eq_of_holeName? hx
    rfl
  | parts _ _ _ => exact identifier?_congr rfl

/-- A hole that is left when holes are filled holds no variable, or one that is shown
    within itself, or it is filled with a name. -/
theorem Fills.mem_holeNames
    (hm : t.Fills active inMarkup n m) (h : t.Pending fuel active n) {x : Text}
    (hx : x ∈ m.holeNames) : t.value? x = none ∨ t.Within x x ∨ t.Gives x := by
  -- As `fills_iff`: the fuel counts the values that are still to be entered.
  induction fuel using Nat.strongRecOn generalizing active n inMarkup m with
  | ind fuel ihfuel =>
    induction n generalizing inMarkup m with
    | mk k s ps ih =>
      cases hm with
      | @hole _ _ _ v w y hy hactive hv hw =>
        obtain ⟨fuel', rfl, -, hpending⟩ := h.enter (mem_holeNames_self hy) hactive hv
        have hvalue (hx : x ∈ w.holeNames) := ihfuel fuel' (Nat.lt_succ_self _) hw hpending hx
        -- The hole holds the value, or the value stands in its place.
        have hhole (sp : Span) (hx : x ∈ (mk .container sp [w]).holeNames) :
            t.value? x = none ∨ t.Within x x ∨ t.Gives x := by
          rcases mem_holeNames_iff.1 hx with hx | ⟨p, hp, hx⟩
          · exact .inr (.inr ⟨y, v, hv, hw.identifier? ▸ hx⟩)
          · exact hvalue (List.mem_singleton.1 hp ▸ hx)
        cases inMarkup with
        | false => exact hhole _ hx
        | true =>
          change x ∈ (inHole _ w).holeNames at hx
          unfold inHole at hx
          split at hx
          · exact hvalue hx
          · exact hhole _ hx
      | @parts _ _ _ qs hn hlength hqs =>
        rcases mem_holeNames_iff.1 hx with hx | ⟨q, hq, hx⟩
        · -- The hole was there before, and is not filled.
          have hname : (mk k s ps).holeName? = some x := by
            obtain ⟨sp, e, heq, he⟩ := eq_of_holeName? hx
            cases heq
            obtain ⟨p, rfl⟩ := List.length_eq_one_iff.1 hlength.symm
            exact (hqs 0 p e rfl rfl).identifier?.symm.trans he
          rcases hn x hname with ha | hv
          · exact .inr (.inl (h.within x ha x (mem_holeNames_self hname)))
          · exact .inl hv
        · obtain ⟨i, hi⟩ := List.getElem?_of_mem hq
          obtain ⟨p, hp⟩ : ∃ p, ps[i]? = some p := by
            have hlt := (List.getElem?_eq_some_iff.1 hi).1
            exact ⟨_, List.getElem?_eq_getElem (hlength ▸ hlt)⟩
          have hmem := List.mem_of_getElem? hp
          exact ih p hmem (hqs i p q hp hi) (h.part hmem) hx

/-! ### What is kept -/

/-- Whether no node that a path comes through, its end included, is a hole that holds a
    variable. -/
def Avoids (t : MarkupTable) (n : Node) (path : List Nat) : Prop :=
  ∀ p, p <+: path → ∀ a, n.at? p = some a → a.holeName?.bind t.value? = none

theorem Avoids.cons {n p : Node} {i : Nat} {path : List Nat} (h : t.Avoids n (i :: path))
    (hp : n.parts[i]? = some p) : t.Avoids p path := by
  intro q hq a ha
  refine h (i :: q) ((List.prefix_cons_inj i).2 hq) a ?_
  rw [at?_cons, hp]
  exact ha

/-- A node that is no hole of a variable is kept, and the holes of its parts are filled. -/
theorem Fills.of_kept (hm : t.Fills active inMarkup n m) (h : n.holeName?.bind t.value? = none) :
    ∃ qs, m = mk n.kind n.span qs ∧ qs.length = n.parts.length ∧
      ∀ (i : Nat) (p : Node), n.parts[i]? = some p →
        ∃ q, qs[i]? = some q ∧ t.Fills active n.isMarkup p q := by
  cases hm with
  | hole hx _ hv _ =>
    rw [hx, Option.bind_some, hv] at h
    cases h
  | @parts _ _ _ qs _ hlength hqs =>
    refine ⟨qs, rfl, hlength, fun i p hp => ?_⟩
    have hlt := (List.getElem?_eq_some_iff.1 hp).1
    have hq := List.getElem?_eq_getElem (hlength ▸ hlt)
    exact ⟨_, hq, hqs i p _ hp hq⟩

/-- A node that is no hole of a variable, nor stands within one, is kept, as the parts
    are that it has. -/
theorem Fills.at? {n m a : Node} {path : List Nat}
    (hm : t.Fills active inMarkup n m) (ha : n.at? path = some a) (h : t.Avoids n path) :
    ∃ qs, m.at? path = some (mk a.kind a.span qs) ∧ qs.length = a.parts.length := by
  induction path generalizing n m inMarkup with
  | nil =>
    obtain rfl := Option.some.inj ha
    obtain ⟨qs, rfl, hlength, -⟩ := hm.of_kept (h [] List.nil_prefix n rfl)
    exact ⟨qs, rfl, hlength⟩
  | cons i path ih =>
    obtain ⟨p, hp, ha⟩ := Option.bind_eq_some_iff.1 ha
    obtain ⟨qs, rfl, -, hqs⟩ := hm.of_kept (h [] List.nil_prefix n rfl)
    obtain ⟨q, hq, hpq⟩ := hqs i p hp
    obtain ⟨rs, hrs, hlength⟩ := ih hpq ha (h.cons hp)
    exact ⟨rs, by rw [at?_cons, parts_mk, hq]; exact hrs, hlength⟩

/-! ### Filling twice -/

/-- A tree without holes of variables is filled already. -/
theorem substitute_of_holeNames (h : ∀ x ∈ n.holeNames, t.value? x = none) :
    n.substitute t.resolve = n :=
  filled_of_holeNames false fun x hx => resolveWithin_eq_none (h x hx)

theorem fills_substitute (t : MarkupTable) (n : Node) :
    t.Fills [] false n (n.substitute t.resolve) :=
  (fills_iff (pending_nil t n) false _).2 rfl

/-- No hole of a variable is left where no variable is shown within itself and none has
    a name that is itself a value. -/
theorem Acyclic.value?_of_mem_holeNames (ht : t.Acyclic) (hgives : ∀ x, t.Gives x → t.value? x = none)
    {x : Text} (hx : x ∈ (n.substitute t.resolve).holeNames) : t.value? x = none := by
  rcases (fills_substitute t n).mem_holeNames (pending_nil t n) hx with hnone | hwithin | hx
  · exact hnone
  · exact (ht x hwithin).elim
  · exact hgives x hx

end MarkupTable

namespace Component

open Node MarkupTable

variable {t : MarkupTable}

/-! ### The statements of a component -/

/-- The statements of a body with markup variables shown where they are used. -/
def showMarkup (t : MarkupTable) (ss : List Node) : List Node :=
  substituteList t.resolve (fillLast t ss)

theorem showMarkup_concat (t : MarkupTable) (ss : List Node) (r : Node) :
    showMarkup t (ss ++ [r]) =
      ss.map (substitute t.resolve) ++ [(fillReturn t r).substitute t.resolve] := by
  rw [showMarkup, fillLast_concat, substituteList_eq, List.map_append]
  rfl

theorem fillReturn_eq_self {n : Node}
    (h : ∀ s e x, n = .mk .returnStatement s [e] → e.identifier? = some x → t.resolve x = none) :
    fillReturn t n = n := by
  unfold fillReturn
  split
  · next s e =>
    have hnone : e.identifier?.bind t.resolve = none :=
      Option.bind_eq_none_iff.2 fun x hx => h s e x rfl hx
    rw [hnone, Option.getD_none]
  · rfl

/-- What a return statement returns is put in only once. -/
theorem fillReturn_fillReturn (hgives : ∀ x, t.Gives x → t.value? x = none) (n : Node) :
    fillReturn t ((fillReturn t n).substitute t.resolve) = (fillReturn t n).substitute t.resolve := by
  refine fillReturn_eq_self fun s e x hn hx => resolveWithin_eq_none ?_
  -- The statement has been a return statement before, of an expression with the same name.
  obtain ⟨s', e', hfill, hx⟩ : ∃ s' e', fillReturn t n = .mk .returnStatement s' [e'] ∧
      e'.identifier? = some x := by
    have hkind : (fillReturn t n).kind = .returnStatement := by
      rw [← kind_substitute t.resolve, hn, kind_mk]
    generalize fillReturn t n = r at hn hkind
    obtain ⟨k, s', ps⟩ := r
    obtain rfl : k = .returnStatement := hkind
    rw [substitute_mk (by simp)] at hn
    obtain ⟨e', rfl, rfl⟩ := List.map_eq_singleton_iff.1 (Node.mk.inj hn).2.2
    exact ⟨s', e', rfl, identifier?_substitute t.resolve e' ▸ hx⟩
  unfold fillReturn at hfill
  split at hfill
  · next e₀ =>
    obtain rfl := (List.cons.inj (Node.mk.inj hfill).2.2).1
    cases hv : e₀.identifier?.bind t.resolve with
    | none =>
      -- Nothing has been put in, so the name is that of no variable.
      rw [hv, Option.getD_none] at hx
      rw [hx, Option.bind_some] at hv
      refine Option.eq_none_iff_forall_not_mem.2 fun v hvalue => ?_
      rw [resolve, resolveWithin, Option.mem_def.1 hvalue] at hv
      cases hv
    | some w =>
      -- A value has been put in, which is a name itself.
      rw [hv, Option.getD_some] at hx
      obtain ⟨y, -, hy⟩ := Option.bind_eq_some_iff.1 hv
      obtain ⟨v, hvalue, rfl⟩ := Option.map_eq_some_iff.1 hy
      exact hgives x ⟨y, v, hvalue, identifier?_substitute _ v ▸ hx⟩
  · next hnot => exact (hnot _ _ hfill).elim

/-- Showing markup variables a second time does nothing. -/
theorem showMarkup_showMarkup (ht : t.Acyclic) (hgives : ∀ x, t.Gives x → t.value? x = none)
    (ss : List Node) : showMarkup t (showMarkup t ss) = showMarkup t ss := by
  have htwice (n : Node) : (n.substitute t.resolve).substitute t.resolve = n.substitute t.resolve :=
    substitute_of_holeNames fun _ hx => ht.value?_of_mem_holeNames hgives hx
  rcases List.eq_nil_or_concat ss with rfl | ⟨ss, r, rfl⟩
  · rfl
  · rw [List.concat_eq_append, showMarkup_concat, showMarkup_concat,
      fillReturn_fillReturn hgives, htwice, List.map_map]
    congr 1
    exact List.map_congr_left fun n _ => htwice n

theorem isMarkupValue_of_value? {c : Component} {x : Text} {v : Node}
    (h : c.markupTable.value? x = some v) : v.isMarkupValue = true := by
  rcases List.mem_append.1 (mem_of_value? h) with hv | hv
  all_goals
    obtain ⟨s, -, hs⟩ := List.mem_flatMap.1 hv
    exact (of_mem_ofStatement hs).1

/-- The names that are values of markup variables are those of blocks. -/
theorem index?_of_gives {c : Component} {x : Text} (h : c.markupTable.Gives x) :
    (Block.index? x).isSome = true := by
  obtain ⟨y, v, hv, hx⟩ := h
  have hmem := isMarkupValue_of_value? hv
  have hkind := identifier?_eq_some.1 hx
  simpa [isMarkupValue, isMarkup, hkind, isPlaceholder, hx] using hmem

/-- Filling holes ends, for any markup variables and any tree: a hole of a variable is
    filled with the value of the variable, in which holes are filled in turn, unless the
    hole stands within that value already. A hole that it leaves is one of no variable, or
    of a variable that is shown within itself, or of a variable with a name that is a
    value; all that is no hole of a variable is kept. The names that are values of the
    variables of a component are those of blocks. So if no variable is shown within
    itself, and none has the name of a block, a compiled component has no hole that holds
    a variable, and filling holes again does nothing. -/
theorem filling_complete (c : Component) :
    (∀ (t : MarkupTable) (n : Node), (∀ m, t.Fills [] false n m ↔ m = n.substitute t.resolve) ∧
      (∀ x ∈ (n.substitute t.resolve).holeNames, t.value? x = none ∨ t.Within x x ∨ t.Gives x) ∧
      (∀ path a, n.at? path = some a → t.Avoids n path →
        ∃ qs, (n.substitute t.resolve).at? path = some (.mk a.kind a.span qs) ∧
          qs.length = a.parts.length) ∧
      (t.Acyclic → (∀ x, t.Gives x → t.value? x = none) →
        (∀ x ∈ (n.substitute t.resolve).holeNames, t.value? x = none) ∧
        (n.substitute t.resolve).substitute t.resolve = n.substitute t.resolve)) ∧
    c.inlineMarkup.body = (showMarkup c.markupTable c.body).filterMap MarkupTable.withoutMarkup ∧
    (∀ ss s e, showMarkup c.markupTable (ss ++ [.mk .returnStatement s [e]]) =
      ss.map (substitute c.markupTable.resolve) ++ [.mk .returnStatement s
        [((e.identifier?.bind c.markupTable.resolve).getD e).substitute c.markupTable.resolve]]) ∧
    (∀ n ∈ c.inlineMarkup.module ++ c.inlineMarkup.body, ∀ x ∈ n.holeNames,
      c.markupTable.value? x = none ∨ c.markupTable.Within x x ∨ (Block.index? x).isSome = true) ∧
    (c.markupTable.Acyclic → (∀ p ∈ c.markupTable, Block.index? p.1 = none) →
      (∀ n ∈ c.inlineMarkup.module ++ c.inlineMarkup.body, ∀ x ∈ n.holeNames,
        c.markupTable.value? x = none) ∧
      ∀ ss, showMarkup c.markupTable (showMarkup c.markupTable ss) =
        showMarkup c.markupTable ss) := by
  have hleft (t : MarkupTable) (n : Node) (x : Text)
      (hx : x ∈ (n.substitute t.resolve).holeNames) :
      t.value? x = none ∨ t.Within x x ∨ t.Gives x :=
    (fills_substitute t n).mem_holeNames (pending_nil t n) hx
  refine ⟨fun t n => ⟨fun m => ?_, hleft t n, fun path a ha h => ?_, fun ht hgives => ?_⟩,
    rfl, fun ss s e => ?_, fun n hn x hx => ?_, fun ht hnames => ?_⟩
  · exact fills_iff (pending_nil t n) false m
  · exact (fills_substitute t n).at? ha h
  · have hnone (x : Text) (hx : x ∈ (n.substitute t.resolve).holeNames) : t.value? x = none :=
      ht.value?_of_mem_holeNames hgives hx
    exact ⟨hnone, substitute_of_holeNames hnone⟩
  · rw [showMarkup_concat, fillReturn, substitute_mk (by simp)]
    rfl
  · rw [inlineMarkup_statements] at hn
    obtain ⟨s, -, rfl⟩ := List.mem_map.1 hn
    exact (hleft _ s x hx).imp_right (Or.imp_right index?_of_gives)
  · have hgives (x : Text) (hx : c.markupTable.Gives x) : c.markupTable.value? x = none := by
      refine Option.eq_none_iff_forall_not_mem.2 fun v hv => ?_
      have hindex := index?_of_gives hx
      rw [hnames _ (mem_of_value? hv)] at hindex
      cases hindex
    refine ⟨fun n hn x hx => ?_, showMarkup_showMarkup ht hgives⟩
    rw [inlineMarkup_statements] at hn
    obtain ⟨s, -, rfl⟩ := List.mem_map.1 hn
    exact ht.value?_of_mem_holeNames hgives hx

/-- A variable within another, in an attribute and among the children, and a variable for
    a block. -/
def crateSource : Text :=
  "export default () => \x7b
    const i = <i/>, crate = <b t=\x7bi\x7d>\x7bi\x7d</b>, list = xs.map(x => <li/>);
    return <p>\x7bcrate\x7d\x7blist\x7d</p>; \x7d;"

theorem crate_filled : ∃ c : Component,
    compileThrough {} [.props, .state, .placement, .lowering, .hooks] crateSource = .ok c ∧
    c.markupTable.map (·.1) = ["i".toList, "crate".toList, "list".toList] ∧
    c.markupTable.Acyclic ∧ (∀ p ∈ c.markupTable, Block.index? p.1 = none) ∧
    c.inlineMarkup.body.flatMap holeNames = [Block.placeholder 0] ∧
    c.markupTable.value? (Block.placeholder 0) = none ∧
    showMarkup c.markupTable (showMarkup c.markupTable c.body) = showMarkup c.markupTable c.body := by
  have hsource : (compileThrough {} [.props, .state, .placement, .lowering, .hooks]
      crateSource).toOption.map (fun c => (c.markupTable.map (·.1),
        c.markupTable.all fun p =>
          p.2.holeNames.all (·.length < p.1.length) && (Block.index? p.1).isNone,
        c.inlineMarkup.body.flatMap holeNames)) =
      some (["i".toList, "crate".toList, "list".toList], true, [Block.placeholder 0]) := by
    rw [(by apply String.toList_ofList : crateSource = _)]
    decide +kernel
  obtain ⟨c, hc, hsource⟩ := of_toOption_map hsource
  obtain ⟨htable, hvalues, hholes⟩ : _ ∧ _ ∧ _ := by simpa only [Prod.mk.injEq] using hsource
  have hvalue (p : Text × Node) (hp : p ∈ c.markupTable) :
      (∀ z ∈ p.2.holeNames, z.length < p.1.length) ∧ Block.index? p.1 = none := by
    simpa using List.all_eq_true.1 hvalues p hp
  have hacyclic : c.markupTable.Acyclic := acyclic_of_rank List.length fun p hp => (hvalue p hp).1
  have hnames (p : Text × Node) (hp : p ∈ c.markupTable) : Block.index? p.1 = none :=
    (hvalue p hp).2
  obtain ⟨hleft, htwice⟩ := (filling_complete c).2.2.2.2 hacyclic hnames
  have hmem : Block.placeholder 0 ∈ c.inlineMarkup.body.flatMap holeNames :=
    hholes ▸ List.mem_singleton_self _
  obtain ⟨s, hs, hx⟩ := List.mem_flatMap.1 hmem
  exact ⟨c, hc, htable, hacyclic, hnames, hholes,
    hleft s (List.mem_append_right _ hs) _ hx, htwice c.body⟩

/-- A variable that has the name of a block is not shown within itself, and yet a hole
    that holds it is left, where another variable has the block for its value. -/
theorem hole_of_block_name_left : ∃ c : Component,
    compileThrough {} [.props, .state, .placement, .lowering, .hooks]
      "const __RAW_BLOCK_0__ = <b/>;
      export default () => \x7b const list = xs.map(x => <li/>); return <p>\x7blist\x7d</p>; \x7d;" = .ok c ∧
    c.markupTable.map (·.1) = [Block.placeholder 0, "list".toList] ∧ c.markupTable.Acyclic ∧
    c.inlineMarkup.body.flatMap holeNames = [Block.placeholder 0] ∧
    c.inlineMarkup.markup.toOption =
      some ("<p>\x7b#each xs as x\x7d<li />\x7b/each\x7d</p>" : Text) := by
  have hsource : (compileThrough {} [.props, .state, .placement, .lowering, .hooks]
      "const __RAW_BLOCK_0__ = <b/>;
      export default () => \x7b const list = xs.map(x => <li/>); return <p>\x7blist\x7d</p>; \x7d;"
      ).toOption.map (fun c => (c.markupTable.map (·.1),
        c.markupTable.all (·.2.holeNames.isEmpty), c.inlineMarkup.body.flatMap holeNames,
        c.inlineMarkup.markup.toOption)) =
      some ([Block.placeholder 0, "list".toList], true, [Block.placeholder 0],
        some ("<p>\x7b#each xs as x\x7d<li />\x7b/each\x7d</p>" : Text)) := by
    conv in compileThrough _ _ _ =>
      arg 3
      apply String.toList_ofList
    decide +kernel
  obtain ⟨c, hc, hsource⟩ := of_toOption_map hsource
  obtain ⟨htable, hempty, hholes, hmarkup⟩ : _ ∧ _ ∧ _ ∧ _ := by
    simpa only [Prod.mk.injEq] using hsource
  refine ⟨c, hc, htable, acyclic_of_rank (fun _ => 0) fun p hp z hz => ?_,
    hholes, hmarkup⟩
  rw [List.isEmpty_iff.1 (List.all_eq_true.1 hempty p hp)] at hz
  exact (List.not_mem_nil hz).elim

end Component

end Unhook
