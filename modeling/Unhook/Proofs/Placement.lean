import Unhook.Compile
import Unhook.Proofs.Reactive
import Unhook.Proofs.Tree

/-!
# Where accepted markup stands

The check of placement carries what is around a node on its way down, and it
recognizes conditionals and callbacks by stretches that it recorded. Here the
*ancestors* of a node are read off the tree alone, all of them
(`Node.ancestors`), and the two are compared.

Where different things have different stretches (`Landmark.Telling`) and holes
are parts of markup, a component is accepted if and only if no markup has a loop
around it and every other ancestor that markup must not have is separated from
the markup by the callback of a list
(`Component.checkPlacement_ok_iff_separated`). So nothing is wrong with the
innermost function around accepted markup, nor with anything in that function.
But a list may stand anywhere but in a loop, and takes its markup along.
-/

namespace Unhook

namespace Placement

/-- How a part stands in its node. -/
inductive Stand
  /-- As all that a hole holds. -/
  | hole
  /-- As the callback that renders the items of a list. -/
  | callback
  | plain
  deriving DecidableEq

/-- What a node is to one of its parts, if it matters to markup. -/
inductive Ancestor
  | loop
  /-- An `if` statement around its body or its alternative. -/
  | ifBody
  /-- A conditional around one of its branches; it may be all that a hole
      holds. -/
  | branch (ofHole : Bool)
  /-- A function; it may be the callback that renders the items of a list. -/
  | function (ofList : Bool)
  deriving DecidableEq

end Placement

open Placement

namespace Node

/-- How the part at `i` stands in a node. -/
def stand : Node → (i : Nat) → Stand
  | mk .container _ [_], _ => .hole
  | mk (.call l p) s ps, i =>
    if i = 2 ∧ ((mk (.call l p) s ps).mapCall?).isSome then .callback else .plain
  | _, _ => .plain

/-- What a node is to its part at `i`, where the node itself stands as `st`. -/
def ancestor? (st : Stand) : Node → (i : Nat) → Option Ancestor
  | mk .conditional _ [_, _, _], _ + 1 => some (.branch (st = .hole))
  | mk .ifStatement _ [_, _, _], _ + 1 => some .ifBody
  | mk (.function _) _ _, _ | mk (.arrow _) _ _, _ => some (.function (st = .callback))
  | mk k _ _, _ => if isLoop k then some .loop else none

/-- The ancestors of the node that a path leads to, innermost first, where the
    node that it leads from stands as `st` and has the ancestors `as`. -/
def ancestors : (n : Node) → (st : Stand) → (as : List Ancestor) → (path : List Nat) → List Ancestor
  | _, _, as, [] => as
  | n, st, as, i :: p =>
    match n.parts[i]? with
    | some m => m.ancestors (n.stand i) ((n.ancestor? st i).toList ++ as) p
    | none => as

end Node

namespace Placement

/-- Whether the innermost branch of the function is one of a conditional that a
    hole holds, or within such a one. -/
def fromHole : List Ancestor → Bool
  | [] => false
  | .loop :: as => fromHole as
  | .ifBody :: _ => false
  | .branch ofHole :: as => ofHole || fromHole as
  | .function _ :: _ => false

/-- Whether markup must not have this ancestor, whose own ancestors are `outer`.
    Loops are not spoken of here. -/
def Ancestor.forbids (outer : List Ancestor) : Ancestor → Bool
  | .loop => false
  | .ifBody => true
  | .branch ofHole => !(ofHole || fromHole outer)
  | .function ofList => !ofList

/-- No ancestor is a loop, and each that markup must not have is separated from
    it by the callback of a list. -/
def Separated (as : List Ancestor) : Prop :=
  .loop ∉ as ∧ ∀ inner a outer, as = inner ++ a :: outer → a.forbids outer →
    .function true ∈ inner

/-- What the ancestors amount to, in a function or none. -/
def Surroundings.of (function : Option Enclosing) : List Ancestor → Surroundings
  | [] => { enclosing := function }
  | .loop :: as => { of function as with inLoop := true }
  | .ifBody :: as => { of function as with branch := some .ofIf }
  | .branch ofHole :: as =>
    { of function as with
      branch := some (.ofConditional (ofHole || (of function as).branch = some (.ofConditional true))) }
  | .function ofList :: as =>
    { of function as with
      branch := none
      enclosing := some (if ofList then .listItem else .other) }

/-! ### The check, part by part -/

/-- What is around the part at `i` of a node. -/
def Surroundings.inner (a : Surroundings) (seen : Seen) : Node → (i : Nat) → Surroundings
  | .mk .conditional s [_, _, _], _ + 1 =>
    { a with branch := some (.ofConditional (a.holds seen s)) }
  | .mk .ifStatement _ [_, _, _], _ + 1 => { a with branch := some .ofIf }
  | .mk (.function _) s _, _ | .mk (.arrow _) s _, _ => a.enter seen s
  | .mk k _ _, _ => if isLoop k then { a with inLoop := true } else a

/-- What is recorded at a node. -/
def Seen.record (seen : Seen) : Node → Seen
  | .mk .container _ [e] => seen.recordHole e
  | .mk (.call l p) s ps => seen.recordCall (.mk (.call l p) s ps)
  | _ => seen

/-- Checks some trees, each in surroundings of its own. -/
def checkParts (f : Nat → Surroundings) : List Node → Seen → Except Problem Seen
  | [], seen => .ok seen
  | n :: ns, seen => do checkParts (fun i => f (i + 1)) ns (← check (f 0) n seen)

theorem checkParts_const (a : Surroundings) (ns : List Node) (seen : Seen) :
    checkParts (fun _ => a) ns seen = checkList a ns seen := by
  induction ns generalizing seen with
  | nil => rfl
  | cons n ns ih =>
    rw [checkParts, checkList]
    exact bind_congr fun seen => ih seen

/-- Markup must be allowed where it stands; otherwise the parts of a node are
    checked in turn. -/
theorem check_eq (a : Surroundings) (n : Node) (seen : Seen) :
    check a n seen =
      match if n.isMarkup then a.cause? else none with
      | some c => .error ⟨c, n.span⟩
      | none => checkParts (a.inner seen n) n.parts (seen.record n) := by
  obtain ⟨k, s, ps⟩ := n
  unfold check
  split
  case h_9 hel hfr _ _ _ hco hcd hif =>
    have hmarkup : (Node.mk k s ps).isMarkup = false := by
      rw [Node.isMarkup]
      split <;> simp_all
    have hinner : a.inner seen (.mk k s ps) =
        fun _ => if isLoop k then { a with inLoop := true } else a := by
      funext i
      unfold Surroundings.inner
      split <;> simp_all
    have hrecord : seen.record (.mk k s ps) = seen := by
      unfold Seen.record
      split <;> simp_all
    rw [hmarkup, hinner, hrecord, checkParts_const]
    rfl
  case h_3 e =>
    show check a e _ = checkParts (fun _ => a) [e] _
    rw [checkParts_const, checkList]
    exact (bind_pure _).symm
  case h_4 | h_5 =>
    exact bind_congr fun _ => bind_congr fun _ => (bind_pure _).symm
  case h_1 | h_2 =>
    rw [← checkParts_const]
    rfl
  case h_6 | h_7 | h_8 =>
    rw [← checkParts_const]
    rfl

/-! ### What is recognized by its stretch -/

/-- A conditional or a function, by its stretch. -/
structure Landmark where
  span : Span
  /-- Whether it is a function, and not a conditional. -/
  function : Bool
  /-- Whether it is a conditional that a hole holds, or the callback of a list. -/
  special : Bool
  deriving DecidableEq

/-- What has the same stretch is in the same position. -/
def Landmark.Telling (ls : List Landmark) : Prop :=
  ∀ a ∈ ls, ∀ b ∈ ls, a.span = b.span → a.function = b.function → a.special = b.special

instance (ls : List Landmark) : Decidable (Landmark.Telling ls) :=
  inferInstanceAs (Decidable (∀ a ∈ ls, ∀ b ∈ ls, _ → _ → _))

end Placement

namespace Node

/-- The landmark that a node is, where it stands as `st`. -/
def landmark? (st : Stand) : Node → Option Landmark
  | mk .conditional s _ => some ⟨s, false, st = .hole⟩
  | mk (.function _) s _ | mk (.arrow _) s _ => some ⟨s, true, st = .callback⟩
  | _ => none

mutual

/-- The landmarks of a tree. -/
def landmarks (st : Stand) : Node → List Landmark
  | mk k s ps => ((mk k s ps).landmark? st).toList ++ landmarksList (mk k s ps).stand ps

/-- The landmarks of some trees, each of which stands in its own way. -/
def landmarksList (f : Nat → Stand) : List Node → List Landmark
  | [] => []
  | n :: ns => n.landmarks (f 0) ++ landmarksList (fun i => f (i + 1)) ns

end

theorem landmarks_subset_landmarksList {f : Nat → Stand} {ns : List Node} {i : Nat} {n : Node}
    (h : ns[i]? = some n) : n.landmarks (f i) ⊆ landmarksList f ns := by
  induction ns generalizing f i with
  | nil => cases h
  | cons m ns ih =>
    rw [landmarksList]
    cases i with
    | zero =>
      cases h
      exact List.subset_append_left _ _
    | succ i => exact List.subset_append_of_subset_right _ (ih (f := fun i => f (i + 1)) h)

theorem landmark?_subset_landmarks (n : Node) (st : Stand) :
    (n.landmark? st).toList ⊆ n.landmarks st := by
  obtain ⟨k, s, ps⟩ := n
  rw [landmarks]
  exact List.subset_append_left _ _

theorem landmarks_subset_landmarks {n m : Node} {i : Nat} (h : n.parts[i]? = some m) (st : Stand) :
    m.landmarks (n.stand i) ⊆ n.landmarks st := by
  obtain ⟨k, s, ps⟩ := n
  rw [landmarks]
  exact List.subset_append_of_subset_right _ (landmarks_subset_landmarksList h)

end Node

namespace Placement

namespace Seen

/-- All that is recorded is in the right position among the landmarks. -/
def Within (ls : List Landmark) (seen : Seen) : Prop :=
  (∀ s ∈ seen.conditionals, ⟨s, false, true⟩ ∈ ls) ∧ ∀ s ∈ seen.callbacks, ⟨s, true, true⟩ ∈ ls

/-- All that is recorded in one is recorded in the other. -/
def Grows (seen seen' : Seen) : Prop :=
  seen.conditionals ⊆ seen'.conditionals ∧ seen.callbacks ⊆ seen'.callbacks

/-- A node that stands as `st` is recorded, if it is recognized that way. -/
def Knows (seen : Seen) (st : Stand) (n : Node) : Prop :=
  (st = .hole → n.kind = .conditional → n.span ∈ seen.conditionals) ∧
    (st = .callback → n.span ∈ seen.callbacks)

theorem Grows.refl (seen : Seen) : seen.Grows seen := ⟨List.Subset.refl _, List.Subset.refl _⟩

theorem Grows.trans {s t u : Seen} (h : s.Grows t) (h' : t.Grows u) : s.Grows u :=
  ⟨List.Subset.trans h.1 h'.1, List.Subset.trans h.2 h'.2⟩

theorem Knows.mono {seen seen' : Seen} {st : Stand} {n : Node} (h : seen.Knows st n)
    (hg : seen.Grows seen') : seen'.Knows st n :=
  ⟨fun hst hn => hg.1 (h.1 hst hn), fun hst => hg.2 (h.2 hst)⟩

theorem knows_plain (seen : Seen) (n : Node) : seen.Knows .plain n := ⟨nofun, nofun⟩

end Seen

end Placement

namespace Node

/-- The parts of a call that renders a list. -/
theorem mapCall?_eq_some {n collection callback : Node}
    (h : n.mapCall? = some (collection, callback)) :
    n.parts[2]? = some callback ∧ callback.isFunction = true := by
  unfold mapCall? at h
  split at h
  · split at h
    · next hc =>
      cases h
      exact ⟨rfl, hc.2.1⟩
    · cases h
  · cases h

theorem landmark_mem_of_isFunction {n : Node} (h : n.isFunction = true) :
    ⟨n.span, true, true⟩ ∈ n.landmarks .callback := by
  apply n.landmark?_subset_landmarks
  obtain ⟨k, s, ps⟩ := n
  cases k with
  | arrow | function => exact List.mem_singleton.2 rfl
  | _ => cases h

theorem landmark_mem_of_conditional {n : Node} (h : n.kind = .conditional) :
    ⟨n.span, false, true⟩ ∈ n.landmarks .hole := by
  apply n.landmark?_subset_landmarks
  obtain ⟨k, s, ps⟩ := n
  cases h
  exact List.mem_singleton.2 rfl

end Node

namespace Placement

namespace Seen

variable {ls : List Landmark} {seen : Seen}

theorem grows_record (seen : Seen) (n : Node) : seen.Grows (seen.record n) := by
  unfold record
  split
  · unfold recordHole
    split
    · exact ⟨List.subset_cons_self _ _, List.Subset.refl _⟩
    · exact .refl _
  · unfold recordCall
    split
    · exact ⟨List.Subset.refl _, List.subset_cons_self _ _⟩
    · exact .refl _
  · exact .refl _

theorem Within.record {n : Node} {st : Stand} (h : seen.Within ls) (hn : n.landmarks st ⊆ ls) :
    (seen.record n).Within ls := by
  have part {i : Nat} {m : Node} (hm : n.parts[i]? = some m) : m.landmarks (n.stand i) ⊆ ls :=
    List.Subset.trans (Node.landmarks_subset_landmarks hm st) hn
  unfold Seen.record
  split
  · next s e =>
    unfold recordHole
    split
    · next he =>
      refine ⟨List.forall_mem_cons.2 ⟨?_, h.1⟩, h.2⟩
      exact part (i := 0) rfl (Node.landmark_mem_of_conditional he)
    · exact h
  · next l p s ps =>
    unfold recordCall
    split
    · next collection callback hcall =>
      obtain ⟨hpart, hfunction⟩ := Node.mapCall?_eq_some hcall
      refine ⟨h.1, List.forall_mem_cons.2 ⟨part hpart ?_, h.2⟩⟩
      have hstand : (Node.mk (.call l p) s ps).stand 2 = .callback :=
        if_pos ⟨rfl, by rw [hcall]; rfl⟩
      rw [hstand]
      exact Node.landmark_mem_of_isFunction hfunction
    · exact h
  · exact h

/-- The parts of a node are recorded with it. -/
theorem knows_record {n m : Node} {i : Nat} (h : n.parts[i]? = some m) :
    (seen.record n).Knows (n.stand i) m := by
  unfold Node.stand
  split
  · next e =>
    have hm : m = e := by
      cases i with
      | zero => exact (Option.some.inj h).symm
      | succ i => cases h
    subst hm
    refine ⟨fun _ hkind => ?_, nofun⟩
    rw [Seen.record, recordHole, if_pos hkind]
    exact List.mem_cons_self
  · next =>
    split
    · next hcall =>
      obtain ⟨rfl, hcall⟩ := hcall
      obtain ⟨⟨collection, callback⟩, hcall⟩ := Option.isSome_iff_exists.1 hcall
      have hm : callback = m := Option.some.inj ((Node.mapCall?_eq_some hcall).1.symm.trans h)
      subst hm
      refine ⟨nofun, fun _ => ?_⟩
      rw [Seen.record, recordCall, hcall]
      exact List.mem_cons_self
    · exact knows_plain _ _
  · exact knows_plain _ _

end Seen

variable {ls : List Landmark} {seen seen' : Seen} {n : Node}

theorem checkParts_keeps {P : Seen → Seen → Prop} (hrefl : ∀ s, P s s)
    (htrans : ∀ {s t u}, P s t → P t u → P s u) {f : Nat → Surroundings} {ns : List Node}
    (h : ∀ i n, ns[i]? = some n → ∀ s t, check (f i) n s = .ok t → P s t)
    (hcheck : checkParts f ns seen = .ok seen') : P seen seen' := by
  induction ns generalizing f seen with
  | nil =>
    cases hcheck
    exact hrefl _
  | cons n ns ih =>
    obtain ⟨t, hn, hcheck⟩ := of_bind_eq_ok hcheck
    exact htrans (h 0 n rfl _ _ hn) (ih (fun i => h (i + 1)) hcheck)

theorem check_parts_ok {a : Surroundings} (h : check a n seen = .ok seen') :
    checkParts (a.inner seen n) n.parts (seen.record n) = .ok seen' := by
  rw [check_eq] at h
  split at h
  · cases h
  · exact h

/-- What is recorded stays recorded, and is recorded for what it is. -/
theorem check_keeps {a : Surroundings} {st : Stand}
    (hn : n.landmarks st ⊆ ls) (h : check a n seen = .ok seen') :
    (seen.Within ls → seen'.Within ls) ∧ seen.Grows seen' := by
  induction n generalizing a st seen seen' with
  | mk k s ps ih =>
    have hparts := checkParts_keeps (P := fun s t => (s.Within ls → t.Within ls) ∧ s.Grows t)
      (fun s => ⟨id, .refl s⟩) (fun h h' => ⟨h'.1 ∘ h.1, h.2.trans h'.2⟩)
      (fun i m hm s t => ih m (List.mem_of_getElem? hm)
        (List.Subset.trans (Node.landmarks_subset_landmarks hm st) hn)) (check_parts_ok h)
    exact ⟨fun hw => hparts.1 (hw.record hn), (Seen.grows_record _ _).trans hparts.2⟩

/-- A stretch is recorded exactly if what has it is to be recognized. -/
theorem Landmark.Telling.contains_eq (h : Telling ls) {s : Span}
    {function special : Bool} (hs : ⟨s, function, special⟩ ∈ ls) {recorded : List Span}
    (hwithin : ∀ t ∈ recorded, ⟨t, function, true⟩ ∈ ls) (hknows : special = true → s ∈ recorded) :
    recorded.contains s = special := by
  rw [Bool.eq_iff_iff, List.contains_iff_mem]
  exact ⟨fun hmem => h _ hs _ (hwithin s hmem) rfl rfl, hknows⟩

/-- Going to a part of a node does to the surroundings what the node does to the
    ancestors. -/
theorem Surroundings.inner_of (htelling : Landmark.Telling ls)
    (function : Option Enclosing) (as : List Ancestor) {st : Stand} {seen : Seen}
    (hn : n.landmarks st ⊆ ls) (hwithin : seen.Within ls) (hknows : seen.Knows st n) (i : Nat) :
    (of function as).inner seen n i = of function ((n.ancestor? st i).toList ++ as) := by
  have hmark {l : Landmark} (h : n.landmark? st = some l) : l ∈ ls :=
    hn (Node.landmark?_subset_landmarks _ st (by rw [h]; exact List.mem_singleton.2 rfl))
  have hentered {s : Span} (hs : n.landmark? st = some ⟨s, true, st = .callback⟩)
      (hspan : n.span = s) :
      (of function as).enter seen s = of function (.function (st = .callback) :: as) := by
    rw [enter, htelling.contains_eq (hmark hs) hwithin.2
      fun h => hspan ▸ hknows.2 (of_decide_eq_true h)]
    rfl
  unfold inner
  split
  · rw [holds, htelling.contains_eq (hmark rfl) hwithin.1
      fun h => hknows.1 (of_decide_eq_true h) rfl]
    rfl
  · rfl
  · exact hentered rfl rfl
  · exact hentered rfl rfl
  · next k s ps hfunction harrow hconditional hif =>
    have hancestor : (Node.mk k s ps).ancestor? st i = if isLoop k then some .loop else none := by
      unfold Node.ancestor?
      split <;> simp_all
    rw [hancestor]
    split <;> rfl

end Placement

namespace Node

/-- All the markup of a tree is allowed where it stands. -/
def Placed (function : Option Enclosing) (st : Stand) (as : List Ancestor) (n : Node) : Prop :=
  ∀ p m, n.at? p = some m → m.isMarkup = true →
    (Surroundings.of function (n.ancestors st as p)).cause? = none

theorem placed_iff {function : Option Enclosing} {st : Stand} {as : List Ancestor} {n : Node} :
    n.Placed function st as ↔ (n.isMarkup = true → (Surroundings.of function as).cause? = none) ∧
      ∀ i (m : Node), n.parts[i]? = some m →
        m.Placed function (n.stand i) ((n.ancestor? st i).toList ++ as) := by
  constructor
  · intro h
    refine ⟨h [] n rfl, fun i m hm p l hl hmarkup => ?_⟩
    have := h (i :: p) l (by rw [at?_cons, hm]; exact hl) hmarkup
    rwa [ancestors, hm] at this
  · rintro ⟨hself, hparts⟩ p l hl hmarkup
    cases p with
    | nil =>
      cases hl
      exact hself hmarkup
    | cons i p =>
      obtain ⟨m, hm, hl⟩ := Option.bind_eq_some_iff.1 hl
      rw [ancestors, hm]
      exact hparts i m hm p l hl hmarkup

end Node

namespace Placement

variable {ls : List Landmark} {function : Option Enclosing} {as : List Ancestor} {a : Ancestor}

/-- Trees pass one after the other if each of them does, whatever has been recorded
    before. -/
theorem checkParts_ok_iff {f : Nat → Surroundings} {ns : List Node} {seen : Seen}
    {P : Nat → Node → Prop} (hwithin : seen.Within ls)
    (h : ∀ i n, ns[i]? = some n → ∀ s, s.Within ls → seen.Grows s →
      ((∃ t, check (f i) n s = .ok t) ↔ P i n) ∧
        ∀ t, check (f i) n s = .ok t → t.Within ls ∧ s.Grows t) :
    (∃ t, checkParts f ns seen = .ok t) ↔ ∀ i n, ns[i]? = some n → P i n := by
  induction ns generalizing f seen P with
  | nil => exact ⟨fun _ _ _ h => (nomatch h), fun _ => ⟨seen, rfl⟩⟩
  | cons n ns ih =>
    obtain ⟨hhead, hkeeps⟩ := h 0 n rfl seen hwithin (.refl _)
    constructor
    · rintro ⟨t, ht⟩
      obtain ⟨s, hs, ht⟩ := of_bind_eq_ok ht
      obtain ⟨hw, hg⟩ := hkeeps s hs
      have htail := (ih (f := fun i => f (i + 1)) (P := fun i => P (i + 1)) hw
        fun i m hm u hu hsu => h (i + 1) m hm u hu (hg.trans hsu)).1 ⟨t, ht⟩
      intro i m hm
      cases i with
      | zero =>
        cases hm
        exact hhead.1 ⟨s, hs⟩
      | succ i => exact htail i m hm
    · intro hall
      obtain ⟨s, hs⟩ := hhead.2 (hall 0 n rfl)
      obtain ⟨hw, hg⟩ := hkeeps s hs
      obtain ⟨t, ht⟩ := (ih (f := fun i => f (i + 1)) (P := fun i => P (i + 1)) hw
        fun i m hm u hu hsu => h (i + 1) m hm u hu (hg.trans hsu)).2 fun i m => hall (i + 1) m
      exact ⟨t, by rw [checkParts, hs]; exact ht⟩

/-- A tree passes if all its markup is allowed where it stands. -/
theorem check_ok_iff (htelling : Landmark.Telling ls) {n : Node} {st : Stand} {seen : Seen}
    (hn : n.landmarks st ⊆ ls) (hwithin : seen.Within ls) (hknows : seen.Knows st n) :
    (∃ t, check (.of function as) n seen = .ok t) ↔ n.Placed function st as := by
  induction n generalizing st as seen with
  | mk k s ps ih =>
    have hpart {i : Nat} {m : Node} (hm : ps[i]? = some m) :=
      List.Subset.trans (Node.landmarks_subset_landmarks hm st) hn
    have hparts := checkParts_ok_iff (f := (Surroundings.of function as).inner seen (.mk k s ps))
      (P := fun i m => m.Placed function ((Node.mk k s ps).stand i)
        (((Node.mk k s ps).ancestor? st i).toList ++ as)) (hwithin.record hn)
      fun i m hm u hu hgrows => by
        rw [Surroundings.inner_of htelling function as hn hwithin hknows i]
        exact ⟨ih m (List.mem_of_getElem? hm) (hpart hm) hu ((Seen.knows_record hm).mono hgrows),
          fun t ht => ⟨(check_keeps (hpart hm) ht).1 hu, (check_keeps (hpart hm) ht).2⟩⟩
    rw [Node.placed_iff, Node.parts_mk, ← hparts, check_eq]
    by_cases hmarkup : (Node.mk k s ps).isMarkup = true
    · rw [if_pos hmarkup]
      cases hcause : (Surroundings.of function as).cause? with
      | some c => simp [hmarkup]
      | none => simp
    · simp [hmarkup]

/-! ### All the ancestors -/

theorem inLoop_of_iff (function : Option Enclosing) (as : List Ancestor) :
    (Surroundings.of function as).inLoop = false ↔ .loop ∉ as := by
  induction as with
  | nil => simp [Surroundings.of]
  | cons a as ih => cases a <;> simp [Surroundings.of, ih]

theorem branch_of_iff (function : Option Enclosing) (as : List Ancestor) :
    (Surroundings.of function as).branch = some (.ofConditional true) ↔ fromHole as = true := by
  induction as with
  | nil => simp [Surroundings.of, fromHole]
  | cons a as ih => cases a <;> simp [Surroundings.of, fromHole, ih]

theorem cause?_eq_none_iff {a : Surroundings} : a.cause? = none ↔
    a.inLoop = false ∧ (a.branch = none ∨ a.branch = some (.ofConditional true)) ∧
      a.enclosing ≠ some .other := by
  obtain ⟨inLoop, branch, enclosing⟩ := a
  cases inLoop <;> rcases branch with - | - | - | - <;> simp [Surroundings.cause?]

theorem cause?_of_branch (function : Option Enclosing) (ofHole : Bool) (as : List Ancestor) :
    (Surroundings.of function (.branch ofHole :: as)).cause? = none ↔
      .loop ∉ as ∧ (ofHole || fromHole as) = true ∧
        (Surroundings.of function as).enclosing ≠ some .other := by
  rw [cause?_eq_none_iff, ← inLoop_of_iff function, Bool.or_eq_true, ← branch_of_iff function]
  simp [Surroundings.of]

theorem cause?_of_function (function : Option Enclosing) (ofList : Bool) (as : List Ancestor) :
    (Surroundings.of function (.function ofList :: as)).cause? = none ↔
      .loop ∉ as ∧ ofList = true := by
  rw [cause?_eq_none_iff, ← inLoop_of_iff function]
  cases ofList <;> simp [Surroundings.of]

theorem separated_cons : Separated (a :: as) ↔
    a ≠ .loop ∧ .loop ∉ as ∧ a.forbids as = false ∧ (a = .function true ∨ Separated as) := by
  constructor
  · rintro ⟨hloop, h⟩
    have hne := List.ne_of_not_mem_cons hloop
    have hloop := List.not_mem_of_not_mem_cons hloop
    refine ⟨hne.symm, hloop, Bool.eq_false_iff.2 fun hforbids => ?_, ?_⟩
    · cases h [] a as rfl hforbids
    · by_cases ha : a = .function true
      · exact .inl ha
      · refine .inr ⟨hloop, fun inner b outer hb hforbids => ?_⟩
        have := h (a :: inner) b outer (by rw [hb]; rfl) hforbids
        exact (List.mem_cons.1 this).resolve_left (Ne.symm ha)
  · rintro ⟨hne, hloop, hforbids, h⟩
    refine ⟨List.not_mem_cons_of_ne_of_not_mem hne.symm hloop, fun inner b outer hb hb' => ?_⟩
    cases inner with
    | nil =>
      cases hb
      rw [hforbids] at hb'
      cases hb'
    | cons c inner =>
      cases hb
      rcases h with rfl | h
      · exact List.mem_cons_self
      · exact List.mem_cons_of_mem _ (h.2 inner b outer rfl hb')

/-- Whatever is separated is allowed. -/
theorem cause?_of_separated (hf : function ≠ some .other)
    (h : Separated as) : (Surroundings.of function as).cause? = none := by
  induction as with
  | nil => simpa [cause?_eq_none_iff, Surroundings.of] using hf
  | cons a as ih =>
    obtain ⟨hne, hloop, hforbids, h⟩ := separated_cons.1 h
    cases a with
    | loop => exact absurd rfl hne
    | ifBody => cases hforbids
    | branch ofHole =>
      refine (cause?_of_branch ..).2 ⟨hloop, by simpa only [Ancestor.forbids, Bool.not_eq_false'] using hforbids, ?_⟩
      exact (cause?_eq_none_iff.1 (ih (h.resolve_left nofun))).2.2
    | function ofList =>
      exact (cause?_of_function ..).2 ⟨hloop, by simpa [Ancestor.forbids] using hforbids⟩

/-- Around every conditional that a hole holds, markup is allowed: that of the
    hole. -/
def Backed (function : Option Enclosing) (as : List Ancestor) : Prop :=
  ∀ inner outer, as = inner ++ .branch true :: outer →
    (Surroundings.of function outer).cause? = none

theorem Backed.of_cons (h : Backed function (a :: as)) : Backed function as :=
  fun inner outer h' => h (a :: inner) outer (by rw [h']; rfl)

theorem Backed.cons (h : Backed function as)
    (ha : a = .branch true → (Surroundings.of function as).cause? = none) :
    Backed function (a :: as) := by
  intro inner outer heq
  cases inner with
  | nil =>
    cases heq
    exact ha rfl
  | cons b inner =>
    cases heq
    exact h inner outer rfl

/-- What is allowed is separated, where holes are parts of allowed markup. -/
theorem separated_of_cause?
    (hbacked : Backed function as) (h : (Surroundings.of function as).cause? = none) :
    Separated as := by
  induction as with
  | nil => exact ⟨List.not_mem_nil, fun inner a outer h => by simp at h⟩
  | cons a as ih =>
    rw [separated_cons]
    cases a with
    | loop => simp [cause?_eq_none_iff, Surroundings.of] at h
    | ifBody => simp [cause?_eq_none_iff, Surroundings.of] at h
    | branch ofHole =>
      obtain ⟨hloop, hhole, henclosing⟩ := (cause?_of_branch ..).1 h
      refine ⟨nofun, hloop, by simp [Ancestor.forbids, hhole], .inr (ih hbacked.of_cons ?_)⟩
      -- The conditional is the one of a hole, or it is within such a one.
      cases ofHole with
      | true => exact hbacked [] as rfl
      | false =>
        exact cause?_eq_none_iff.2 ⟨(inLoop_of_iff ..).2 hloop, .inr ((branch_of_iff ..).2 hhole),
          henclosing⟩
    | function ofList =>
      obtain ⟨hloop, rfl⟩ := (cause?_of_function ..).1 h
      exact ⟨nofun, hloop, rfl, .inl rfl⟩

end Placement

/-- Whether nodes of this kind lead from markup to its holes. -/
def Kind.leadsToHole : Kind → Bool
  | .container | .attribute _ _ | .opening => true
  | _ => false

/-- Whether a node of the first kind can be a part of one of the second: a hole
    belongs to an element, a fragment or an attribute, and that to an element. -/
def Kind.belongsTo : Kind → Kind → Bool
  | .container, .element | .container, .fragment | .container, .attribute _ _
  | .attribute _ _, .opening | .opening, .element => true
  | k, _ => !k.leadsToHole

namespace Node

variable {n : Node}

/-- Whether all the holes of a tree are parts of markup. -/
def holesBelong (n : Node) : Bool := !n.any fun m => m.parts.any fun p => !p.kind.belongsTo m.kind

theorem holesBelong_part {n m : Node} (h : n.holesBelong = true) (hm : m ∈ n.parts) :
    m.kind.belongsTo n.kind = true ∧ m.holesBelong = true := by
  obtain ⟨k, s, ps⟩ := n
  rw [holesBelong, any_mk, anyList_eq] at h
  simp only [Bool.not_eq_true', Bool.or_eq_false_iff, List.any_eq_false] at h
  exact ⟨by simpa using h.1 m hm, by simpa [holesBelong] using h.2 m hm⟩

theorem ancestor?_of_belongsTo {n m : Node} (hm : m.kind.leadsToHole = true)
    (h : m.kind.belongsTo n.kind = true) :
    (n.isMarkup = true ∨ n.kind.leadsToHole = true) ∧ ∀ st i, n.ancestor? st i = none := by
  obtain ⟨k, s, ps⟩ := n
  obtain ⟨l, t, qs⟩ := m
  simp only [kind_mk] at hm h
  unfold Kind.belongsTo at h
  split at h
  · exact ⟨.inl rfl, fun _ _ => rfl⟩
  · exact ⟨.inl rfl, fun _ _ => rfl⟩
  · exact ⟨.inr rfl, fun _ _ => rfl⟩
  · exact ⟨.inr rfl, fun _ _ => rfl⟩
  · exact ⟨.inl rfl, fun _ _ => rfl⟩
  · rw [hm] at h
    cases h

theorem stand_eq_hole {i : Nat} (h : n.stand i = .hole) :
    n.kind.leadsToHole = true ∧ ∀ st i, n.ancestor? st i = none := by
  unfold stand at h
  split at h
  · exact ⟨rfl, fun _ _ => rfl⟩
  · split at h <;> cases h
  · cases h

theorem ancestor?_eq_branch {st : Stand} {i : Nat}
    (h : n.ancestor? st i = some (.branch true)) : st = .hole := by
  unfold ancestor? at h
  split at h
  · simpa using h
  · cases h
  · cases h
  · cases h
  · split at h <;> cases h

/-- Where all markup is allowed, the ancestors of every node are backed. -/
theorem backed_ancestors {function : Option Enclosing} {st : Stand}
    {as : List Ancestor} (hholes : n.holesBelong = true) (hplaced : n.Placed function st as)
    (hbacked : Backed function as)
    (hstand : st = .hole → (Surroundings.of function as).cause? = none)
    (hkind : n.kind.leadsToHole = true → (Surroundings.of function as).cause? = none)
    (p : List Nat) : Backed function (n.ancestors st as p) := by
  induction p generalizing n st as with
  | nil => exact hbacked
  | cons i p ih =>
    rw [ancestors]
    split
    · next m hm =>
      obtain ⟨hself, hparts⟩ := placed_iff.1 hplaced
      obtain ⟨hbelongs, hholes'⟩ := holesBelong_part hholes (List.mem_of_getElem? hm)
      refine ih hholes' (hparts i m hm) ?_ ?_ ?_
      · cases ha : n.ancestor? st i with
        | none => exact hbacked
        | some a => exact hbacked.cons fun h => hstand (ancestor?_eq_branch (h ▸ ha))
      · intro hst
        obtain ⟨hn, hnone⟩ := stand_eq_hole hst
        rw [hnone]
        exact hkind hn
      · intro hleads
        obtain ⟨hn, hnone⟩ := ancestor?_of_belongsTo hleads hbelongs
        rw [hnone]
        exact hn.elim hself hkind
    · exact hbacked

end Node

namespace Component

/-- The conditionals and functions of a component, by their stretches. -/
def landmarks (c : Component) : List Landmark := (c.module ++ c.body).flatMap (·.landmarks .plain)

/-- Whether all the holes of a component are parts of markup. -/
def holesBelong (c : Component) : Bool :=
  (c.module ++ c.body).all fun s => !s.kind.leadsToHole && s.holesBelong

/-- A piece of markup of a component, with the ancestors that it has within the
    component or outside. -/
def HasMarkup (c : Component) (m : Node) (as : List Ancestor) : Prop :=
  ∃ s ∈ c.module ++ c.body, ∃ p, s.at? p = some m ∧ m.isMarkup = true ∧ s.ancestors .plain [] p = as

theorem checkList_ok_iff {ls : List Landmark} (htelling : Landmark.Telling ls)
    (function : Option Enclosing) {ns : List Node} {seen : Seen}
    (hns : ∀ n ∈ ns, n.landmarks .plain ⊆ ls) (hwithin : seen.Within ls) :
    (∃ t, checkList { enclosing := function } ns seen = .ok t) ↔
      ∀ n ∈ ns, n.Placed function .plain [] := by
  have hpart {i : Nat} {n : Node} (hn : ns[i]? = some n) : n.landmarks .plain ⊆ ls :=
    hns n (List.mem_of_getElem? hn)
  have hparts : checkList { enclosing := function } ns seen =
      checkParts (fun _ => .of function []) ns seen := (checkParts_const _ ns seen).symm
  rw [hparts, checkParts_ok_iff (P := fun _ n => n.Placed function .plain []) hwithin
    fun i n hn s hs _ => ⟨check_ok_iff htelling (hpart hn) hs (Seen.knows_plain s n),
      fun t ht => ⟨(check_keeps (hpart hn) ht).1 hs, (check_keeps (hpart hn) ht).2⟩⟩]
  exact ⟨fun h n hn => by
    obtain ⟨i, hi⟩ := List.getElem?_of_mem hn
    exact h i n hi, fun h _ n hn => h n (List.mem_of_getElem? hn)⟩

theorem checkList_within {ls : List Landmark} {a : Surroundings} {ns : List Node}
    {seen seen' : Seen} (hns : ∀ n ∈ ns, n.landmarks .plain ⊆ ls)
    (h : checkList a ns seen = .ok seen') (hwithin : seen.Within ls) : seen'.Within ls := by
  rw [← checkParts_const] at h
  exact checkParts_keeps (P := fun s t => s.Within ls → t.Within ls) (fun _ => id)
    (fun h h' => h' ∘ h)
    (fun i n hn s t hcheck => (check_keeps (hns n (List.mem_of_getElem? hn)) hcheck).1) h hwithin

/-- A component is accepted if all its markup is allowed, in the module and in the
    component. -/
theorem checkPlacement_ok_iff {c : Component} (htelling : Landmark.Telling c.landmarks) :
    (∃ d, c.checkPlacement = .ok d) ↔ (∀ s ∈ c.module, s.Placed none .plain []) ∧
      ∀ s ∈ c.body, s.Placed (some .component) .plain [] := by
  have hall {s : Node} (hs : s ∈ c.module ++ c.body) : s.landmarks .plain ⊆ c.landmarks :=
    fun l hl => List.mem_flatMap.2 ⟨s, hs, hl⟩
  have hmodule (s : Node) (hs : s ∈ c.module) := hall (List.mem_append_left c.body hs)
  have hbody (s : Node) (hs : s ∈ c.body) := hall (List.mem_append_right c.module hs)
  have hstart : Seen.Within c.landmarks {} := ⟨nofun, nofun⟩
  rw [← checkList_ok_iff htelling none hmodule hstart]
  constructor
  · rintro ⟨d, hd⟩
    obtain ⟨seen, hseen, hd⟩ := of_bind_eq_ok hd
    obtain ⟨seen', hseen', -⟩ := of_bind_eq_ok hd
    exact ⟨⟨seen, hseen⟩, (checkList_ok_iff htelling (some .component) hbody
      (checkList_within hmodule hseen hstart)).1 ⟨seen', hseen'⟩⟩
  · rintro ⟨⟨seen, hseen⟩, hplaced⟩
    obtain ⟨seen', hseen'⟩ := (checkList_ok_iff htelling (some .component) hbody
      (checkList_within hmodule hseen hstart)).2 hplaced
    refine ⟨c, ?_⟩
    rw [checkPlacement, hseen]
    show (checkList _ c.body seen >>= _) = _
    rw [hseen']
    rfl

/-- Where all markup of a statement is allowed, it is separated, and conversely. -/
theorem placed_iff_separated {function : Option Enclosing} (hf : function ≠ some .other) {s : Node}
    (hkind : s.kind.leadsToHole = false) (hholes : s.holesBelong = true) :
    s.Placed function .plain [] ↔
      ∀ p m, s.at? p = some m → m.isMarkup = true → Separated (s.ancestors .plain [] p) := by
  constructor
  · intro h p m hm hmarkup
    have hbacked := Node.backed_ancestors hholes h (fun inner outer h => by simp at h) nofun
      (fun h => by rw [hkind] at h; cases h) p
    exact separated_of_cause? hbacked (h p m hm hmarkup)
  · exact fun h p m hm hmarkup => cause?_of_separated hf (h p m hm hmarkup)

/-- Where different things have different stretches and holes are parts of markup,
    a component is accepted if and only if no markup has a loop around it and every
    other ancestor that markup must not have is separated from it by the callback of
    a list. -/
theorem checkPlacement_ok_iff_separated {c : Component} (htelling : Landmark.Telling c.landmarks)
    (hholes : c.holesBelong = true) :
    (∃ d, c.checkPlacement = .ok d) ↔ ∀ m as, c.HasMarkup m as → Separated as := by
  have hall {s : Node} (hs : s ∈ c.module ++ c.body) :
      s.kind.leadsToHole = false ∧ s.holesBelong = true := by
    simpa using List.all_eq_true.1 hholes s hs
  have hmodule : (none : Option Enclosing) ≠ some .other := nofun
  have hcomponent : some Enclosing.component ≠ some .other := nofun
  rw [checkPlacement_ok_iff htelling]
  constructor
  · rintro ⟨houtside, hinside⟩ m as ⟨s, hs, p, hm, hmarkup, rfl⟩
    obtain ⟨hkind, hholes⟩ := hall hs
    rcases List.mem_append.1 hs with hs | hs
    · exact (placed_iff_separated hmodule hkind hholes).1 (houtside s hs) p m hm hmarkup
    · exact (placed_iff_separated hcomponent hkind hholes).1 (hinside s hs) p m hm hmarkup
  · intro h
    have hplaced {function : Option Enclosing} (hf : function ≠ some .other) {s : Node}
        (hs : s ∈ c.module ++ c.body) : s.Placed function .plain [] :=
      (placed_iff_separated hf (hall hs).1 (hall hs).2).2
        fun p m hm hmarkup => h m _ ⟨s, hs, p, hm, hmarkup, rfl⟩
    exact ⟨fun s hs => hplaced hmodule (List.mem_append_left _ hs),
      fun s hs => hplaced hcomponent (List.mem_append_right _ hs)⟩

/-- Markup in a branch of a hole, and in callbacks of lists in a branch and in a
    function of its own. -/
def listsSource : Text :=
  "export default (\x7b a, xs \x7d) => \x7b
    const rows = () => xs.map(x => <i>\x7bx\x7d</i>);
    return <ul>\x7ba ? <b/> : xs.map(x => <li>\x7bx\x7d</li>)\x7d</ul>;
  \x7d;"

theorem lists_separated : ∃ c : Component, compileThrough {} [.props, .state] listsSource = .ok c ∧
    Landmark.Telling c.landmarks ∧ c.holesBelong = true ∧ (∃ d, c.checkPlacement = .ok d) ∧
    ∀ m as, c.HasMarkup m as → Separated as := by
  have hsource : ((compileThrough {} [.props, .state] listsSource).toOption.map fun c =>
      (decide (Landmark.Telling c.landmarks), c.holesBelong, c.checkPlacement.toOption.isSome)) =
      some (true, true, true) := by
    rw [(by apply String.toList_ofList : listsSource = _)]
    decide +kernel
  obtain ⟨c, hc, hsource⟩ := of_toOption_map hsource
  obtain ⟨htelling, hholes, hplaced⟩ : _ ∧ _ ∧ _ := by simpa only [Prod.mk.injEq] using hsource
  have htelling := of_decide_eq_true htelling
  have hplaced := of_isSome_toOption hplaced
  exact ⟨c, hc, htelling, hholes, hplaced,
    (checkPlacement_ok_iff_separated htelling hholes).1 hplaced⟩

/-- A list in the body of an `if` statement is accepted, with its markup. -/
theorem list_in_if_body_accepted :
    ((compileThrough {} [.props, .state, .placement] "export default (\x7b a, xs \x7d) => \x7b
        let v; if (a) \x7b v = xs.map(x => <b/>); \x7d return <p>\x7bv\x7d</p>; \x7d;"
        ).toOption.bind fun c =>
      c.body[1]?.bind fun s => (s.at? [0, 1, 0, 0, 1, 2, 3]).map fun m =>
        (m.isMarkup, s.ancestors .plain [] [0, 1, 0, 0, 1, 2, 3])) =
      some (true, [.function true, .ifBody]) := by
  conv =>
    enter [1, 1, 1, 3]
    apply String.toList_ofList
  decide +kernel

end Component

end Unhook
