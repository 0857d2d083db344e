import Mathlib.Data.List.Nodup
import Unhook.Proofs.Branching
import Unhook.Proofs.Placeholder
import Unhook.Proofs.Separated
import Unhook.Proofs.Stable
import Unhook.Proofs.Tally.Markup

/-!
# Placeholders stand once

A placeholder is made with its block, and put where the list or the choice was that the
block is written from. From there it may get into the text of another block, which is made
later. So no placeholder stands twice, in trees and texts taken together, and none in a
text of a block with a smaller number or in that of its own.

* `Node.Houses`: nodes at different places within a node;
* `Block.Linear`: what becomes of placeholders when blocks are made;
* `Node.linear_lowerChoices`, `Node.linear_lowerLists`: what becomes of those in a tree;
* `Component.placeholders_lowerMarkup`: so it is for all trees and blocks.
-/

namespace Unhook

open Block

variable {i : Nat}

/-! ### Texts of blocks -/

theorem tally_holeText (t : Text) : tally i (holeText t) = tally i t := by
  simp +decide [holeText]

namespace Each

theorem tally_text (collection item : Text) (key : Option Text) (body : Text) :
    tally i (text collection item key body) =
      tally i collection + tally i item + tallies i key.toList + tally i body := by
  unfold text
  dsimp only
  cases key <;> simp +decide <;> omega

theorem tally_keyText?_le {v : Node} (h : v.isSeparated = true) :
    tallies i (keyText? v).toList ≤ v.load i := by
  unfold keyText?
  split
  · next s e =>
    split
    · exact Nat.zero_le _
    · have he := Node.tally_printExpression_le (i := i)
        ((Node.isSeparated_mk.1 h).2 e List.mem_cons_self)
      simp [Node.load_mk]
      omega
  · next raw s ps =>
    simp +decide [Node.load_mk, Kind.load, Kind.spellings]
  · exact Nat.zero_le _

/-- The text of a list has no more placeholders than its pieces. -/
theorem tally_text_le {collection item root : Node} {key : Option Node}
    (hkey : ∀ v ∈ key.toList, v.isSeparated = true) (hroot : root.isSeparated = true)
    (hitem : item.isSeparated = true) (hcollection : collection.isSeparated = true) :
    tally i (text collection.printExpression item.printPattern (key.bind keyText?)
      root.printExpression) ≤ Node.loads i (key.toList ++ [root, item, collection]) := by
  have hcollection := Node.tally_printExpression_le (i := i) hcollection
  have hitem := Node.tally_printPattern_le (i := i) hitem
  have hroot := Node.tally_printExpression_le (i := i) hroot
  have hkey : tallies i (key.bind keyText?).toList ≤ Node.loads i key.toList := by
    cases key with
    | none => exact Nat.le_refl _
    | some v => simpa using tally_keyText?_le (i := i) (hkey v (Option.mem_toList.2 rfl))
  rw [tally_text, Node.loads_append]
  simp only [Node.loads_cons, Node.loads_nil]
  omega

end Each

namespace Choice

variable {n : Node}

theorem tally_operandText_le (h : n.isSeparated = true) : tally i (operandText n) ≤ n.load i := by
  have hprint := Node.tally_printExpression_le (i := i) h
  obtain ⟨k, s, ps⟩ := n
  unfold operandText
  split
  · exact Nat.zero_le _
  · next x hk =>
    obtain rfl : k = .identifier x := hk
    split
    · exact Nat.zero_le _
    · rw [tally_holeText, Node.load_mk]
      simp [Kind.load, Kind.spellings]
  · exact hprint
  · exact hprint
  · rw [tally_holeText]
    exact hprint

theorem tally_branching_le (names : List Text) (h : n.isSeparated = true) :
    tally i (branching names n).text ≤ n.load i := by
  fun_induction branching names n
  case case1 s t a b hlower iha ihb =>
    have hparts := (Node.isSeparated_mk.1 h).2
    simp only [List.forall_mem_cons] at hparts
    obtain ⟨ht, ha, hb, -⟩ := hparts
    have ht := Node.tally_printExpression_le (i := i) ht
    have ha := iha ha
    have hb := ihb hb
    unfold Branching.text Branching.withElse
    simp +decide [Node.load_mk] at ha hb ⊢
    omega
  case case3 s t a hlower iha =>
    have hparts := (Node.isSeparated_mk.1 h).2
    simp only [List.forall_mem_cons] at hparts
    obtain ⟨ht, ha, -⟩ := hparts
    have ht := Node.tally_printExpression_le (i := i) ht
    have ha := iha ha
    unfold Branching.text Branching.withoutElse
    simp +decide [Node.load_mk] at ha ⊢
    omega
  case case2 | case4 | case5 => exact tally_operandText_le h

/-- The text of a choice has no more placeholders than the expression. -/
theorem tally_block_le (names : List Text) (h : n.isSeparated = true) :
    tally i (block names n).text ≤ n.load i := by
  have htext : (block names n).text = (branching names n).text := render_eq_text names n []
  rw [htext]
  exact tally_branching_le names h

end Choice

/-! ### Pieces of lists -/

namespace Node

theorem loads_le_of_sublist {ns ms : List Node} (h : ns.Sublist ms) : loads i ns ≤ loads i ms := by
  induction h with
  | slnil => exact Nat.le_refl _
  | cons m _ ih =>
    rw [loads_cons]
    exact Nat.le_add_left_of_le ih
  | cons_cons m _ ih =>
    rw [loads_cons, loads_cons]
    exact Nat.add_le_add_left ih _

/-- Nodes that stand at different places within a node: together they have no more
    placeholders than it has, and they are separated if it is. -/
structure Houses (n : Node) (ms : List Node) : Prop where
  load : ∀ i, loads i ms ≤ n.load i
  separated : n.isSeparated = true → ∀ m ∈ ms, m.isSeparated = true

namespace Houses

variable {n m : Node} {ms ls : List Node}

theorem refl (n : Node) : n.Houses [n] :=
  ⟨fun i => by simp, fun hn => List.forall_mem_singleton.2 hn⟩

theorem parts (h : ms.Sublist n.parts) : n.Houses ms := by
  obtain ⟨k, s, ps⟩ := n
  refine ⟨fun i => ?_, fun hn m hm => (isSeparated_mk.1 hn).2 m (h.subset hm)⟩
  rw [load_mk]
  exact Nat.le_add_left_of_le (loads_le_of_sublist h)

/-- What is within one of the nodes stands at other places than the other nodes. -/
theorem trans (h : n.Houses (m :: ms)) (hm : m.Houses ls) : n.Houses (ls ++ ms) := by
  refine ⟨fun i => ?_, fun hn => ?_⟩
  · have h := h.load i
    have hm := hm.load i
    rw [loads_cons] at h
    rw [loads_append]
    omega
  · obtain ⟨hm', hms⟩ := List.forall_mem_cons.1 (h.separated hn)
    exact List.forall_mem_append.2 ⟨hm.separated hm', hms⟩

/-- The order of the nodes does not matter. -/
theorem swap {a b : Node} (h : n.Houses (a :: b :: ms)) : n.Houses (b :: a :: ms) := by
  refine ⟨fun i => ?_, fun hn => ?_⟩
  · have h := h.load i
    simp only [loads_cons] at h ⊢
    omega
  · obtain ⟨ha, h⟩ := List.forall_mem_cons.1 (h.separated hn)
    obtain ⟨hb, h⟩ := List.forall_mem_cons.1 h
    exact List.forall_mem_cons.2 ⟨hb, List.forall_mem_cons.2 ⟨ha, h⟩⟩

end Houses

theorem houses_mapCall {call collection callback : Node}
    (h : call.mapCall? = some (collection, callback)) : call.Houses [collection, callback] := by
  unfold mapCall? at h
  split at h
  · next s o m t c ts f =>
    split at h
    · cases h
      have hmember : (mk (.member ⟨o, false⟩ m) t [collection]).Houses [collection] :=
        .parts (List.Sublist.refl _)
      exact .trans (.parts (by simp)) hmember
    · cases h
  · cases h

/-- The parameters of a function and its body stand at different places. -/
theorem houses_parameters {f : Node} (h : f.parameters ≠ []) :
    ∃ ps : Node, f.Houses [ps, f.body] ∧ f.parameters.Sublist ps.parts := by
  unfold parameters at h ⊢
  dsimp only at h ⊢
  split at h
  · next a ps r b => exact ⟨ps, .parts (by simp [body]), List.filter_sublist⟩
  · next n a ps r b => exact ⟨ps, .parts (by simp [body]), List.filter_sublist⟩
  · exact (h rfl).elim

theorem houses_onlyPattern {f p : Node} (h : f.onlyPattern? = some p) : f.Houses [p, f.body] := by
  unfold onlyPattern? at h
  split at h
  · next mods optional s d q ps hparameters =>
    cases h
    obtain ⟨params, hf, hsublist⟩ := houses_parameters (f := f) (by simp [hparameters])
    rw [hparameters] at hsublist
    have hparam : (mk (.param mods optional) s (d :: p :: ps)).Houses [p] :=
      .parts (.cons _ (.cons_cons _ (List.nil_sublist _)))
    exact hf.trans (.trans (.parts hsublist) hparam)
  · cases h

theorem houses_root {f root : Node} (h : Each.root? f = some root) : f.body.Houses [root] := by
  unfold Each.root? at h
  split at h
  · next hbody =>
    split at h
    · next s e hstatements =>
      split at h
      · cases h
        have hreturn : [mk .returnStatement s [root]].Sublist f.body.parts := by
          rw [← hstatements, statements, hbody]
          exact List.filter_sublist
        exact .trans (.parts hreturn) (.parts (List.Sublist.refl _))
      · cases h
    · cases h
  · split at h
    · cases h
      exact .refl _
    · cases h

theorem loads_eraseP (q : Node → Bool) (ns : List Node) :
    loads i (ns.find? q).toList + loads i (ns.eraseP q) = loads i ns := by
  induction ns with
  | nil => rfl
  | cons n ns ih =>
    rw [List.find?_cons, List.eraseP_cons]
    cases q n with
    | true => simp
    | false =>
      simp only [loads_cons, cond_false] at ih ⊢
      omega

/-- The value of the key stands at another place than what is left without the key. -/
theorem houses_keyless (root : Node) :
    root.Houses ((Each.keyValue? root).toList ++ [Each.keyless root]) := by
  unfold Each.keyless
  fun_cases Each.takeKey root with
  | case1 s t name types attributes rest key =>
    have hkey (a : Node) : a.Houses a.parts.head?.toList := by
      refine .parts ?_
      cases a.parts with
      | nil => exact List.Sublist.refl _
      | cons v ps => exact .cons_cons _ (List.nil_sublist _)
    have hvalue : Each.keyValue? (mk .element s (mk .opening t (name :: types :: attributes) ::
        rest)) = (attributes.find? Each.isKey).bind (·.parts.head?) := rfl
    rw [hvalue]
    refine ⟨fun i => ?_, fun hn => ?_⟩
    · have hattributes := loads_eraseP (i := i) Each.isKey attributes
      simp only [loads_append, load_mk, loads_cons, loads_nil]
      cases hfind : attributes.find? Each.isKey with
      | none =>
        rw [hfind] at hattributes
        simp at hattributes ⊢
        omega
      | some a =>
        have hload := (hkey a).load i
        rw [hfind] at hattributes
        simp at hattributes ⊢
        omega
    · obtain ⟨helement, hparts⟩ := isSeparated_mk.1 hn
      obtain ⟨hopening, hrest⟩ := List.forall_mem_cons.1 hparts
      have hattributes := (isSeparated_mk.1 hopening).2
      refine List.forall_mem_append.2 ⟨fun v hv => ?_, List.forall_mem_singleton.2 ?_⟩
      · obtain ⟨a, ha, hv⟩ := Option.bind_eq_some_iff.1 (Option.mem_toList.1 hv)
        have ha : a ∈ name :: types :: attributes := by simp [List.mem_of_find?_eq_some ha]
        exact (hkey a).separated (hattributes a ha) v (Option.mem_toList.2 hv)
      · have hsublist : (name :: types :: attributes.eraseP Each.isKey).Sublist
            (name :: types :: attributes) := .cons_cons _ (.cons_cons _ List.eraseP_sublist)
        refine isSeparated_mk.2 ⟨helement, List.forall_mem_cons.2 ⟨?_, hrest⟩⟩
        exact isSeparated_mk.2 ⟨rfl, fun m hm => hattributes m (hsublist.subset hm)⟩
  | case2 n h =>
    rw [Each.keyValue?_eq_none h]
    exact .refl root

end Node

/-- The pieces of a list stand at different places within it. -/
theorem Each.houses_pieces {call : Node} {p : Pieces} (h : pieces? call = some p) :
    call.Houses (p.key.toList ++ [p.root, p.item, p.collection]) := by
  unfold pieces? at h
  obtain ⟨⟨collection, callback⟩, hcall, h⟩ := Option.bind_eq_some_iff.1 h
  obtain ⟨item, hitem, h⟩ := Option.bind_eq_some_iff.1 h
  obtain ⟨root, hroot, h⟩ := Option.bind_eq_some_iff.1 h
  cases h
  have hcallback : call.Houses [item, callback.body, collection] :=
    (Node.houses_mapCall hcall).swap.trans (Node.houses_onlyPattern hitem)
  have hroot : call.Houses [root, item, collection] :=
    hcallback.swap.trans (Node.houses_root hroot)
  have hpieces := hroot.trans (Node.houses_keyless root)
  rwa [List.append_assoc] at hpieces

/-! ### Making blocks -/

namespace Block

/-- Whether a number is that of a block that is added when there are `m` blocks, until
    there are `n`. -/
def fresh (j m n : Nat) : Nat := if m ≤ j ∧ j < n then 1 else 0

theorem fresh_self (j m : Nat) : fresh j m m = 0 := if_neg (by omega)

theorem fresh_add {j l m n : Nat} (hlm : l ≤ m) (hmn : m ≤ n) :
    fresh j l m + fresh j m n = fresh j l n := by
  unfold fresh
  grind

/-- What may become of placeholders `ms` when there are blocks `bs`: they are the
    placeholders `ns` in the end, or stand in the texts of the blocks of `bs'` that are
    added. None is used twice, but those of the added blocks come up. What stands in the
    text of an added block was there before, or belongs to an earlier block. -/
structure Linear (ms : List Nat) (bs : List Block) (ns : List Nat) (bs' : List Block) : Prop where
  kept : bs <+: bs'
  once : ∀ j, ns.count j + tallies j (bs'.map text) ≤
    ms.count j + tallies j (bs.map text) + fresh j bs.length bs'.length
  below : ∀ i b, bs'[i]? = some b → bs.length ≤ i → ∀ j ∈ marks b.text, j ∈ ms ∨ j < i

namespace Linear

variable {ms ns ls : List Nat} {bs bs' bs'' : List Block} {b : Block}

theorem of_le (h : ∀ j, ns.count j ≤ ms.count j) : Linear ms bs ns bs where
  kept := List.prefix_refl bs
  once j := by
    rw [fresh_self]
    exact Nat.add_le_add_right (h j) _
  below i b hb hi := by
    rw [List.getElem?_eq_none hi] at hb
    cases hb

theorem refl (ms : List Nat) (bs : List Block) : Linear ms bs ms bs := .of_le fun _ => Nat.le_refl _

/-- The placeholders in the end were there before, or belong to blocks. -/
theorem mem (h : Linear ms bs ns bs') {j : Nat} (hj : j ∈ ns) : j ∈ ms ∨ j < bs'.length := by
  have honce := h.once j
  have hpos := List.count_pos_iff.2 hj
  have hkept : tallies j (bs.map text) ≤ tallies j (bs'.map text) := by
    obtain ⟨cs, rfl⟩ := h.kept
    rw [List.map_append, tallies_append]
    exact Nat.le_add_right _ _
  by_cases hlt : j < bs'.length
  · exact .inr hlt
  · have hfresh : fresh j bs.length bs'.length = 0 := if_neg fun h => hlt h.2
    exact .inl (List.count_pos_iff.1 (by omega))

theorem trans (h : Linear ms bs ns bs') (h' : Linear ns bs' ls bs'') : Linear ms bs ls bs'' where
  kept := h.kept.trans h'.kept
  once j := by
    have hfresh : fresh j bs.length bs'.length + fresh j bs'.length bs''.length =
        fresh j bs.length bs''.length := fresh_add h.kept.length_le h'.kept.length_le
    have honce := h.once j
    have honce' := h'.once j
    omega
  below i b hb hi j hj := by
    by_cases hi' : bs'.length ≤ i
    · rcases h'.below i b hb hi' j hj with hj | hj
      · exact (h.mem hj).imp_right fun hj => Nat.lt_of_lt_of_le hj hi'
      · exact .inr hj
    · -- The block was there before the second part.
      obtain ⟨cs, rfl⟩ := h'.kept
      rw [List.getElem?_append_left (by omega)] at hb
      exact h.below i b hb hi j hj

/-- Placeholders that nothing is done with are left, before others and after them. -/
theorem frame (h : Linear ms bs ns bs') (ks ls : List Nat) :
    Linear (ks ++ (ms ++ ls)) bs (ks ++ (ns ++ ls)) bs' where
  kept := h.kept
  once j := by
    have honce := h.once j
    simp only [List.count_append]
    omega
  below i b hb hi j hj := (h.below i b hb hi j hj).imp_left fun hj =>
    List.mem_append_right _ (List.mem_append_left _ hj)

/-- A block that is made of a text with some placeholders gives one. -/
theorem place (h : ∀ j, tally j b.text ≤ ms.count j) : Linear ms bs [bs.length] (bs ++ [b]) where
  kept := List.prefix_append bs [b]
  once j := by
    have hfresh : [bs.length].count j = fresh j bs.length (bs ++ [b]).length := by
      rw [List.length_append, fresh, List.count_singleton]
      grind
    have h := h j
    rw [hfresh, List.map_append, tallies_append, List.map_singleton, tallies_cons, tallies_nil]
    omega
  below i d hd hi j hj := by
    rw [List.getElem?_append_right hi] at hd
    obtain rfl : b = d := List.mem_singleton.1 (List.mem_of_getElem? hd) ▸ rfl
    have hpos : 0 < tally j b.text := List.count_pos_iff.2 hj
    exact .inl (List.count_pos_iff.1 (Nat.lt_of_lt_of_le hpos (h j)))

end Linear

end Block

namespace Each

/-- The block of a list is written from its pieces, with the choices of the markup
    lowered. -/
theorem block?_eq (names : List Text) (call : Node) (bs : List Block) :
    block? names call bs = (pieces? call).map fun p =>
      let r := p.root.lowerChoices names false bs
      ({ text := text p.collection.printExpression p.item.printPattern (p.key.bind keyText?)
          r.1.printExpression
         references := shownVariables names r.1 [] }, r.2) := by
  unfold block? pieces?
  cases call.mapCall? with
  | none => rfl
  | some m =>
    cases hi : m.2.onlyPattern? with
    | none => simp [hi]
    | some item =>
      cases hr : root? m.2 with
      | none => simp [hi, hr]
      | some root => simp [hi, hr, takeKey_snd, keyless]

end Each

namespace Node

theorem marks_placeholderNode (i : Nat) : (placeholderNode i).marks = [i] := by
  have hmark : Block.marks (placeholder i) = [i] := marks_mark (Text.toNat?_ofNat i)
  have hnode : (placeholderNode i).marks = [placeholder i].flatMap Block.marks ++ [] := rfl
  rw [hnode, List.flatMap_singleton, hmark, List.append_nil]

variable {names : List Text} {k : Kind} {s : Span} {ps qs ns : List Node} {bs bs' : List Block}

/-- Lowering the parts of a node leaves what is written with the node itself. -/
theorem linear_parts (h : Linear (marksList ps) bs (marksList qs) bs') :
    Linear (mk k s ps).marks bs (mk k s qs).marks bs' := by
  have h := h.frame (k.spellings.flatMap Block.marks) []
  rwa [List.append_nil, List.append_nil] at h

/-- Trees are lowered one after the other. -/
theorem linear_append {ms ls : List Node} {bs'' : List Block}
    (hps : Linear (marksList ps) bs (marksList qs) bs')
    (hms : Linear (marksList ms) bs' (marksList ls) bs'') :
    Linear (marksList (ps ++ ms)) bs (marksList (qs ++ ls)) bs'' := by
  have hms := hms.frame (marksList qs) []
  rw [List.append_nil, List.append_nil] at hms
  rw [marksList_append, marksList_append]
  exact (hps.frame [] (marksList ms)).trans hms

theorem linear_cons {n m : Node} {ls : List Node} {bs'' : List Block}
    (hn : Linear n.marks bs m.marks bs') (hns : Linear (marksList ns) bs' (marksList ls) bs'') :
    Linear (marksList (n :: ns)) bs (marksList (m :: ls)) bs'' := by
  rw [← marksList_singleton n, ← marksList_singleton m] at hn
  exact linear_append hn hns

/-! ### Choices -/

theorem linear_lowerChoicesList (names : List Text) {a : Bool}
    (h : ∀ n ∈ ns, ∀ bs, Linear n.marks bs (n.lowerChoices names a bs).1.marks
      (n.lowerChoices names a bs).2) (bs : List Block) :
    Linear (marksList ns) bs (marksList (lowerChoicesList names a ns bs).1)
      (lowerChoicesList names a ns bs).2 := by
  induction ns generalizing bs with
  | nil => exact .refl _ _
  | cons n ns ih =>
    exact linear_cons (h n List.mem_cons_self bs)
      (ih (fun m hm => h m (List.mem_cons_of_mem _ hm)) _)

/-- Lowering choices uses the placeholders of a tree once. -/
theorem linear_lowerChoices {n : Node} (h : n.isSeparated = true) (a : Bool) (bs : List Block) :
    Linear n.marks bs (n.lowerChoices names a bs).1.marks (n.lowerChoices names a bs).2 := by
  induction n generalizing a bs with
  | mk k s ps ih =>
    obtain ⟨-, hps⟩ := isSeparated_mk.1 h
    have hlist := linear_lowerChoicesList names
      (fun n hn => ih n hn (hps n hn) (a || k.isAttribute)) bs
    have halike : List.Forall₂ Alike ps (lowerChoicesList names (a || k.isAttribute) ps bs).1 :=
      forall₂_lowerChoicesList (fun n _ bs => alike_lowerChoices n _ bs) bs
    rw [lowerChoices_mk]
    dsimp only
    generalize lowerChoicesList names (a || k.isAttribute) ps bs = r at hlist halike
    obtain ⟨qs, bs'⟩ := r
    dsimp only at hlist halike ⊢
    split
    · next e =>
      split
      · -- The hole holds the placeholder of the block that its expression is made.
        obtain ⟨p, hp, he⟩ := exists_of_forall₂ halike List.mem_cons_self
        have hblock : Linear (marksList [e]) bs' (marksList [placeholderNode bs'.length])
            (bs' ++ [Choice.block names e]) := by
          rw [marksList_singleton, marksList_singleton, marks_placeholderNode]
          exact .place fun j => Choice.tally_block_le names (he.separated (hps p hp))
        exact linear_parts (hlist.trans hblock)
      · exact linear_parts hlist
    · exact linear_parts hlist

/-! ### Lists -/

theorem linear_lowerListsList (names : List Text)
    (h : ∀ n ∈ ns, ∀ bs, Linear n.marks bs (n.lowerLists names bs).1.marks
      (n.lowerLists names bs).2) (bs : List Block) :
    Linear (marksList ns) bs (marksList (lowerListsList names ns bs).1)
      (lowerListsList names ns bs).2 := by
  induction ns generalizing bs with
  | nil => exact .refl _ _
  | cons n ns ih =>
    exact linear_cons (h n List.mem_cons_self bs)
      (ih (fun m hm => h m (List.mem_cons_of_mem _ hm)) _)

/-- The block of a list uses the placeholders of the call once. -/
theorem linear_block {call : Node} (h : call.isSeparated = true) {b : Block}
    (hb : Each.block? names call bs = some (b, bs')) :
    Linear call.marks bs (placeholderNode bs'.length).marks (bs' ++ [b]) := by
  rw [Each.block?_eq] at hb
  obtain ⟨p, hp, hb⟩ := Option.map_eq_some_iff.1 hb
  cases hb
  have hpieces := Each.houses_pieces hp
  have hseparated := hpieces.separated h
  simp only [List.forall_mem_append, List.forall_mem_cons] at hseparated
  obtain ⟨hkey, hroot, hitem, hcollection, -⟩ := hseparated
  have hlowered : Linear p.root.marks bs (p.root.lowerChoices names false bs).1.marks
      (p.root.lowerChoices names false bs).2 := linear_lowerChoices hroot false bs
  have hroot : (p.root.lowerChoices names false bs).1.isSeparated = true :=
    (alike_lowerChoices p.root false bs).separated hroot
  generalize p.root.lowerChoices names false bs = r at hlowered hroot ⊢
  -- The pieces of the call, then those with the choices lowered, then the block.
  have htaken : Linear call.marks bs
      (marksList (p.key.toList ++ [p.root, p.item, p.collection])) bs := .of_le hpieces.load
  have hchosen : Linear (marksList (p.key.toList ++ [p.root, p.item, p.collection])) bs
      (marksList (p.key.toList ++ [r.1, p.item, p.collection])) r.2 := by
    rw [marksList_append, marksList_append]
    exact hlowered.frame (marksList p.key.toList) (marksList [p.item, p.collection])
  refine (htaken.trans hchosen).trans ?_
  rw [marks_placeholderNode]
  exact .place fun j => Each.tally_text_le hkey hroot hitem hcollection

/-- Lowering lists uses the placeholders of a tree once. -/
theorem linear_lowerLists {n : Node} (h : n.isSeparated = true) (bs : List Block) :
    Linear n.marks bs (n.lowerLists names bs).1.marks (n.lowerLists names bs).2 := by
  induction n generalizing bs with
  | mk k s ps ih =>
    obtain ⟨hk, hps⟩ := isSeparated_mk.1 h
    have hlist := linear_lowerListsList names (fun n hn => ih n hn (hps n hn)) bs
    have halike : List.Forall₂ Alike ps (lowerListsList names ps bs).1 :=
      forall₂_lowerListsList (fun n _ bs => alike_lowerLists n bs) bs
    rw [lowerLists_mk]
    dsimp only
    generalize lowerListsList names ps bs = r at hlist halike
    obtain ⟨qs, bs'⟩ := r
    dsimp only at hlist halike ⊢
    have hparts : Linear (mk k s ps).marks bs (mk k s qs).marks bs' := linear_parts hlist
    split
    · next b bs'' hb =>
      split at hb
      · have hcall : (mk k s qs).isSeparated = true :=
          (Alike.parts rfl (fun _ h => h) halike).separated h
        exact hparts.trans (linear_block hcall hb)
      · cases hb
    · exact hparts

end Node

/-! ### Attributes -/

namespace Attribute

/-- No placeholder begins in the name of an event. -/
theorem lowerCase_ne {c : Char} (h : isEventLetter c = true) : lowerCase c ≠ '_' := by
  unfold lowerCase
  split
  · decide
  · unfold Char.toLower
    split
    · next hupper =>
      intro hlower
      have hval : (c.val + ('a'.val - 'A'.val)).toNat = '_'.val.toNat :=
        congrArg (fun d : Char => d.val.toNat) hlower
      have hlow : 65 ≤ c.val.toNat := hupper.1
      have hhigh : c.val.toNat ≤ 90 := hupper.2
      have hshift : ('a'.val - 'A'.val).toNat = 32 := rfl
      have hline : '_'.val.toNat = 95 := rfl
      rw [UInt32.toNat_add] at hval
      omega
    · rintro rfl
      cases h

theorem not_mem_event {name e : Text} (h : event? name = some e) : '_' ∉ e := by
  unfold event? at h
  split at h
  · split at h
    · next hevent =>
      cases h
      intro hline
      obtain ⟨c, hc, hlower⟩ := List.mem_map.1 hline
      exact lowerCase_ne (List.all_eq_true.1 hevent.2.2 c hc) hlower
    · cases h
  · cases h

/-- The new name of an attribute has no more placeholders than the name that it had. -/
theorem load_rename_le (name : Text) : (Kind.attribute (rename name).1 (rename name).2).load i ≤
    (Kind.attribute none name).load i := by
  unfold rename
  split
  · simp +decide [Kind.load, Kind.spellings]
  · split
    · next e he =>
      have hnone := tally_append_of_not_mem (i := i) (not_mem_event he) []
      rw [List.append_nil, tally_nil] at hnone
      simp +decide [Kind.load, Kind.spellings, hnone]
    · exact Nat.le_refl _

end Attribute

theorem Node.loads_map_le {f : Node → Node} {ns : List Node}
    (h : ∀ n ∈ ns, (f n).load i ≤ n.load i) : loads i (ns.map f) ≤ loads i ns := by
  induction ns with
  | nil => exact Nat.le_refl _
  | cons n ns ih =>
    rw [List.forall_mem_cons] at h
    rw [List.map_cons, loads_cons, loads_cons]
    exact Nat.add_le_add h.1 (ih h.2)

theorem Node.load_renameAttributes_le (n : Node) : n.renameAttributes.load i ≤ n.load i := by
  induction n with
  | mk k s ps ih =>
    have hps : loads i (renameAttributesList ps) ≤ loads i ps := by
      rw [renameAttributesList_eq]
      exact loads_map_le ih
    cases k
    case «attribute» space name =>
      cases space with
      | none =>
        rw [renameAttributes, load_mk, load_mk]
        exact Nat.add_le_add (Attribute.load_rename_le name) hps
      | some space =>
        rw [renameAttributes, load_mk, load_mk]
        · exact Nat.add_le_add_left hps _
        · simp
    all_goals
      rw [renameAttributes, load_mk, load_mk]
      · exact Nat.add_le_add_left hps _
      · simp

/-! ### The whole step -/

namespace Component

variable {c : Component}

/-- The numbers of the placeholders in the texts of the blocks and in the statements. -/
def placeholders (c : Component) : List Nat :=
  c.blocks.flatMap (fun b => marks b.text) ++ Node.marksList (c.module ++ c.body)

/-- Whether signs stand between the texts of all statements. -/
def isSeparated (c : Component) : Bool := (c.module ++ c.body).all Node.isSeparated

/-- What becomes of the placeholders of a component. -/
def Linear (c d : Component) : Prop :=
  Block.Linear (Node.marksList (c.module ++ c.body)) c.blocks
    (Node.marksList (d.module ++ d.body)) d.blocks

theorem linear_renameAttributes (c : Component) : c.Linear c.renameAttributes := by
  refine .of_le fun j => ?_
  simp only [renameAttributes, Node.renameAttributesList_eq, ← List.map_append]
  exact Node.loads_map_le fun n _ => Node.load_renameAttributes_le n

theorem linear_lowerLists (h : c.isSeparated = true) : c.Linear c.lowerLists := by
  obtain ⟨hmodule, hbody⟩ := List.forall_mem_append.1 (List.all_eq_true.1 h)
  exact Node.linear_append
    (Node.linear_lowerListsList _ (fun n hn => Node.linear_lowerLists (hmodule n hn)) _)
    (Node.linear_lowerListsList _ (fun n hn => Node.linear_lowerLists (hbody n hn)) _)

theorem linear_lowerChoices (h : c.isSeparated = true) : c.Linear c.lowerChoices := by
  obtain ⟨hmodule, hbody⟩ := List.forall_mem_append.1 (List.all_eq_true.1 h)
  exact Node.linear_append
    (Node.linear_lowerChoicesList _ (fun n hn => Node.linear_lowerChoices (hmodule n hn) _) _)
    (Node.linear_lowerChoicesList _ (fun n hn => Node.linear_lowerChoices (hbody n hn) _) _)

theorem isSeparated_renameAttributes (h : c.isSeparated = true) :
    c.renameAttributes.isSeparated = true := by
  refine List.all_eq_true.2 fun m hm => ?_
  obtain ⟨n, hn, rfl⟩ := exists_of_mem_renameAttributes hm
  exact (Node.alike_renameAttributes n).separated (List.all_eq_true.1 h n hn)

theorem isSeparated_lowerLists (h : c.isSeparated = true) : c.lowerLists.isSeparated = true := by
  refine List.all_eq_true.2 fun m hm => ?_
  obtain ⟨n, hn, bs, rfl⟩ := exists_of_mem_lowerLists hm
  exact (Node.alike_lowerLists n bs).separated (List.all_eq_true.1 h n hn)

/-- Giving markup its output form uses the placeholders of a component once. -/
theorem linear_lowerMarkup (h : c.isSeparated = true) : c.Linear c.lowerMarkup := by
  have hrenamed : c.renameAttributes.findMarkupNames.isSeparated = true :=
    isSeparated_renameAttributes h
  have hlists : c.renameAttributes.findMarkupNames.lowerLists.findMarkupNames.isSeparated = true :=
    isSeparated_lowerLists hrenamed
  exact (linear_renameAttributes c).trans
    ((linear_lowerLists hrenamed).trans (linear_lowerChoices hlists))

theorem count_placeholders (c : Component) (j : Nat) : c.placeholders.count j =
    (Node.marksList (c.module ++ c.body)).count j + tallies j (c.blocks.map Block.text) := by
  rw [placeholders, List.count_append, tallies, List.flatMap_map, Nat.add_comm]

/-- In the output form of the markup of a component that has no placeholders before, every
    placeholder is one of a block that has been added. It stands in one place, be it in the
    text of a block or in a statement, and it is none in the text of its own block or of an
    earlier one. No list and no choice is left without one. Hypothesis: the statements are
    separated. -/
theorem placeholders_lowerMarkup {c : Component} (hseparated : c.isSeparated = true)
    (hfree : c.placeholders = []) :
    (∀ i b, c.lowerMarkup.blocks[i]? = some b → ∀ j ∈ marks b.text, j < i) ∧
    (∀ j ∈ c.lowerMarkup.placeholders, c.blocks.length ≤ j ∧ j < c.lowerMarkup.blocks.length) ∧
    c.lowerMarkup.placeholders.Nodup ∧ c.lowerMarkup.Stable := by
  have hlinear := linear_lowerMarkup hseparated
  have honce (j : Nat) : c.lowerMarkup.placeholders.count j ≤
      fresh j c.blocks.length c.lowerMarkup.blocks.length := by
    have hbefore := count_placeholders c j
    have honce := hlinear.once j
    rw [hfree, List.count_nil] at hbefore
    rw [count_placeholders]
    omega
  obtain ⟨hblocks, htrees⟩ := List.append_eq_nil_iff.1 hfree
  refine ⟨fun i b hb j hj => ?_, fun j hj => ?_, ?_, stable_lowerMarkup c⟩
  · by_cases hi : c.blocks.length ≤ i
    · refine (hlinear.below i b hb hi j hj).resolve_left fun hj => ?_
      rw [htrees] at hj
      cases hj
    · -- The blocks that were there before have no placeholders.
      obtain ⟨bs, hbs⟩ := hlinear.kept
      rw [← hbs, List.getElem?_append_left (by omega)] at hb
      rw [List.flatMap_eq_nil_iff.1 hblocks b (List.mem_of_getElem? hb)] at hj
      cases hj
  · have hpos := Nat.lt_of_lt_of_le (List.count_pos_iff.2 hj) (honce j)
    by_contra hout
    rw [fresh, if_neg hout] at hpos
    cases hpos
  · refine List.nodup_iff_count_le_one.2 fun j => Nat.le_trans (honce j) ?_
    unfold fresh
    split <;> omega

/-- A choice that shows a list, where the list has a key and a choice of its own. -/
def nestingSource : Text :=
  "export default () => <p>\x7bn && xs.map(x => <a key=\x7bx\x7d>\x7bx && <b/>\x7d</a>)\x7d</p>"

theorem placeholders_of_nesting : ∃ c : Component,
    compileThrough {} [.props, .state, .placement] nestingSource = .ok c ∧
    c.isSeparated = true ∧ c.placeholders = [] ∧ c.lowerMarkup.placeholders = [0, 1, 2] ∧
    (∀ i b, c.lowerMarkup.blocks[i]? = some b → ∀ j ∈ marks b.text, j < i) ∧
    c.lowerMarkup.placeholders.Nodup := by
  have hsource : ((compileThrough {} [.props, .state, .placement] nestingSource).toOption.map
      fun c => (c.isSeparated, c.placeholders, c.lowerMarkup.placeholders)) =
      some (true, [], [0, 1, 2]) := by
    rw [(by apply String.toList_ofList : nestingSource = _)]
    decide +kernel
  obtain ⟨c, hc, hsource⟩ := of_toOption_map hsource
  simp only [Prod.mk.injEq] at hsource
  obtain ⟨hseparated, hfree, hplaceholders⟩ := hsource
  obtain ⟨hbelow, -, hnodup, -⟩ := placeholders_lowerMarkup hseparated hfree
  exact ⟨c, hc, hseparated, hfree, hplaceholders, hbelow, hnodup⟩

end Component

end Unhook
