import Unhook.Proofs.Tally.Types

/-!
# Placeholders in markup, and in trees

What markup is written as has no more placeholders than its spellings and its parts. The
children of an element come one after the other with nothing between them; but of two
neighbours one is between signs.

With this all rules are gone through, and a separated tree is written with no more
placeholders than it has.

* `Node.good_piece`: separated trees are written with good pieces;
* `Node.tally_printExpression_le`: an expression by itself;
* `Node.tally_printPattern_le`: a pattern in a declaration.
-/

namespace Unhook

open Block

namespace Printer

variable {i : Nat} {qs : List Piece} {a b o q : Piece} {k : Kind}

/-! ### Markup -/

theorem tally_children_le (hapart : Kind.apart (qs.map Piece.kind) = true)
    (hqs : ∀ q ∈ qs, q.Good i) (p : Place) : tally i (qs.map (·.text p)).flatten ≤ loads i qs := by
  induction qs with
  | nil => exact Nat.le_refl _
  | cons a qs ih =>
    rw [List.forall_mem_cons] at hqs
    cases qs with
    | nil => simpa using hqs.1.tally_le p
    | cons b qs =>
      obtain ⟨hab, hapart⟩ := Bool.and_eq_true_iff.1 hapart
      have hrest := ih hapart hqs.2
      have ha := hqs.1.tally_le p
      have hjoined : tally i (a.text p ++ ((b :: qs).map (·.text p)).flatten) =
          tally i (a.text p) + tally i ((b :: qs).map (·.text p)).flatten := by
        rcases Bool.or_eq_true_iff.1 hab with ha | hb
        · exact tally_append_of_sealed (hqs.1.closed (by simp [Kind.endsApart, ha]) p)
        · have hb' := (List.forall_mem_cons.1 hqs.2).1
          refine tally_append ?_
          exact (hb'.clear (by simp [Kind.opensApart, hb]) p).append_left (hb'.fits.ne_nil hb p) _
      rw [List.map_cons, List.flatten_cons, hjoined, loads_cons]
      exact Nat.add_le_add ha hrest

theorem tally_openingTag_le (ha : a.Good i) (hqs : ∀ q ∈ qs, q.Good i) (p : Place) :
    tally i (openingTag a qs p) ≤ a.load i + loads i qs := by
  have ha := ha.tally_le p.fresh
  have hclear : ∀ t ∈ qs.map fun q => ' ' :: q.text p.fresh, Clear t :=
    List.forall_mem_map.2 fun q _ => by simp +decide
  have hattributes : tallies i (qs.map fun q => ' ' :: q.text p.fresh) ≤ loads i qs :=
    tallies_map_le fun q hq => by simpa +decide using (hqs q hq).tally_le _
  rw [openingTag, tally_append (marks_flatten hclear).1, tally_flatten hclear]
  simp +decide
  omega

theorem tally_attributeString (raw : Text) : tally i (attributeString raw) = tally i raw := by
  unfold attributeString
  dsimp only
  split <;> simp +decide

/-- What an element is written as: a tag by itself, or tags with children between them. -/
theorem markup_element (o : Piece) (qs : List Piece) (c : Piece) (p : Place) :
    markup .element (o :: (qs ++ [c])) p = if c.isAbsent then o.text p.fresh ++ " />".toList
      else o.text p.fresh ++ ">".toList ++ (qs.map (·.text p.fresh)).flatten ++ c.text p.fresh := by
  delta markup
  dsimp only
  rw [List.reverse_concat]
  dsimp only
  rw [List.reverse_reverse]

/-- What both begins and ends with a sign is between signs, if it is there. -/
theorem isEnclosed_of_apart (hopens : k.opensApart = true) (hends : k.endsApart = true) :
    k.isEnclosed = true ∨ k = .absent := by
  rcases Bool.or_eq_true_iff.1 hends with h | h
  · exact .inl h
  · split at h
    · exact .inr rfl
    · cases hopens
    · cases h

/-- The parts of an element: what opens it, its children, and what closes it. -/
theorem exists_of_separates_element (hk : Kind.element.separates (qs.map Piece.kind) = true) :
    ∃ o rs c, qs = o :: (rs ++ [c]) ∧ o.kind.opensApart = true ∧
      (c.kind.isEnclosed = true ∨ c.kind = .absent) ∧ Kind.apart (rs.map Piece.kind) = true := by
  cases qs with
  | nil => cases hk
  | cons o qs =>
    obtain ⟨hk, hapart⟩ := Bool.and_eq_true_iff.1 hk
    obtain ⟨ho, hc⟩ := Bool.and_eq_true_iff.1 hk
    rw [List.map_cons, List.tail_cons] at hc hapart
    rcases List.eq_nil_or_concat qs with rfl | ⟨rs, c, rfl⟩
    · cases hc
    · rw [List.concat_eq_append] at hc hapart ⊢
      rw [List.map_append, List.map_singleton, List.getLast?_concat] at hc
      rw [List.map_append, List.map_singleton, List.dropLast_concat] at hapart
      obtain ⟨hopens, hends⟩ := Bool.and_eq_true_iff.1 hc
      exact ⟨o, rs, c, rfl, ho, isEnclosed_of_apart hopens hends, hapart⟩

/-- What an element is written as is between signs, and has no more placeholders than its
    parts. -/
theorem element_fits (hk : Kind.element.separates (qs.map Piece.kind) = true)
    (hqs : ∀ q ∈ qs, q.Good i) (p : Place) :
    tally i (markup .element qs p) ≤ loads i qs ∧ Clear (markup .element qs p) ∧
      Sealed (markup .element qs p) ∧ markup .element qs p ≠ [] := by
  obtain ⟨o, rs, c, rfl, ho, hc, hapart⟩ := exists_of_separates_element hk
  simp only [List.forall_mem_cons, List.forall_mem_append] at hqs
  obtain ⟨hgood, hrs, hlast, -⟩ := hqs
  have hclear := hgood.clear ho p.fresh
  have hload := hgood.tally_le p.fresh
  have hchildren := tally_children_le hapart hrs p.fresh
  rw [markup_element]
  rcases hc with hc | hc
  · have hpresent : c.isAbsent = false := decide_eq_false fun h : c.kind = .absent => by
      rw [h] at hc
      cases hc
    have hclearLast := hlast.clear (Bool.or_eq_true_iff.2 (.inl hc)) p.fresh
    have hsealedLast := hlast.closed (Bool.or_eq_true_iff.2 (.inl hc)) p.fresh
    have hnonempty := hlast.fits.ne_nil hc p.fresh
    have hloadLast := hlast.tally_le p.fresh
    rw [if_neg (by rw [hpresent]; decide)]
    refine ⟨?_, ?_, hsealedLast.append_right hnonempty _, by simp⟩
    · simp +decide [hclearLast]
      omega
    · simp +decide [hclear]
  · have habsent : c.isAbsent = true := decide_eq_true hc
    rw [if_pos habsent]
    refine ⟨?_, ?_, (sealed_concat (t := " /".toList).2 rfl).append_right (by simp) _, by simp⟩
    · simp +decide
      omega
    · simp +decide [hclear]

/-- What markup is written as has no more placeholders than its spellings and its parts. -/
theorem tally_markup_le (hk : k.separates (qs.map Piece.kind) = true) (hqs : ∀ q ∈ qs, q.Good i)
    (p : Place) : tally i (markup k qs p) ≤ k.load i + loads i qs := by
  cases k
  case tag n | tagRef n | markupText n =>
    exact Nat.le_add_right_of_le (Nat.le_of_eq (by simp [Kind.load, Kind.spellings]; rfl))
  case tagNamespaced a b =>
    delta markup
    simp +decide [Kind.load, Kind.spellings]
  case attributeString raw =>
    refine Nat.le_add_right_of_le (Nat.le_of_eq ((tally_attributeString raw).trans ?_))
    simp [Kind.load, Kind.spellings]
  -- Any number of parts.
  case element => exact Nat.le_add_left_of_le (element_fits hk hqs p).1
  case fragment =>
    have hchildren := tally_children_le hk hqs p.fresh
    delta markup
    dsimp only
    simp +decide
    omega
  case opening =>
    rcases qs with _ | ⟨a, _ | ⟨b, qs⟩⟩
    case cons.cons =>
      simp only [List.forall_mem_cons] at hqs
      obtain ⟨ha, -, hqs⟩ := hqs
      have htag := tally_openingTag_le ha hqs p
      delta markup
      dsimp only
      simp only [loads_cons]
      omega
    all_goals exact Nat.zero_le _
  -- One part.
  case closing | tagMember | spreadAttribute | container | spreadChild =>
    rcases qs with _ | ⟨a, _ | ⟨_, _⟩⟩
    case cons.nil =>
      have ha := hqs a List.mem_cons_self
      delta markup
      dsimp only
      simp +decide [Kind.load, Kind.spellings]
      grind [Piece.Good.tally_le]
    all_goals exact Nat.zero_le _
  case «attribute» space n =>
    rcases qs with _ | ⟨a, _ | ⟨_, _⟩⟩
    case cons.nil =>
      have ha := (hqs a List.mem_cons_self).tally_le p.fresh
      delta markup
      dsimp only
      cases space <;> simp +decide [Kind.load, Kind.spellings] <;> grind
    all_goals exact Nat.zero_le _
  all_goals exact Nat.zero_le _

/-! ### All rules -/

theorem tally_layout_le (hk : k.separates (qs.map Piece.kind) = true) (hqs : ∀ q ∈ qs, q.Good i)
    (p : Place) : tally i (layout k qs p) ≤ k.load i + loads i qs := by
  unfold layout
  split
  · cases endsLine k <;> simpa +decide using tally_expression_le hk hqs p
  · exact tally_statement_le hk hqs p
  · exact tally_markup_le hk hqs p
  · exact tally_type_le hk hqs p

/-- What is said to be written between signs is. -/
theorem enclosed_layout (hk : k.separates (qs.map Piece.kind) = true) (hqs : ∀ q ∈ qs, q.Good i)
    (h : k.isEnclosed = true) (p : Place) :
    Clear (layout k qs p) ∧ Sealed (layout k qs p) ∧ layout k qs p ≠ [] := by
  have hbetween {c d : Char} (t u : Text) (hc : inMark c = false) (hd : inMark d = false) :
      Clear (c :: t ++ (u ++ [d])) ∧ Sealed (c :: t ++ (u ++ [d])) ∧ c :: t ++ (u ++ [d]) ≠ [] :=
    ⟨clear_cons.2 hc, (sealed_concat.2 hd).append_right (by simp) _, by simp⟩
  cases k
  case element => exact (element_fits hk hqs p).2
  case fragment => exact hbetween _ "</".toList rfl rfl
  case closing | container | spreadChild =>
    rcases qs with _ | ⟨a, _ | ⟨_, _⟩⟩
    case cons.nil => exact hbetween _ [] rfl rfl
    all_goals cases hk
  all_goals cases h

theorem clear_layout (hk : k.separates (qs.map Piece.kind) = true) (hqs : ∀ q ∈ qs, q.Good i)
    (h : k.opensApart = true) (p : Place) : Clear (layout k qs p) := by
  rcases Bool.or_eq_true_iff.1 h with h | h
  · exact (enclosed_layout hk hqs h p).1
  · split at h
    · exact clear_nil
    · exact clear_cons.2 rfl
    · show Clear (typeParameters qs p)
      unfold typeParameters
      split <;> exact clear_cons.2 rfl
    · exact clear_cons.2 rfl
    · rcases qs with _ | ⟨a, _ | ⟨b, qs⟩⟩
      · exact clear_nil
      · exact clear_nil
      · exact clear_cons.2 rfl
    · cases h

theorem sealed_layout (hk : k.separates (qs.map Piece.kind) = true) (hqs : ∀ q ∈ qs, q.Good i)
    (h : k.endsApart = true) (p : Place) : Sealed (layout k qs p) := by
  rcases Bool.or_eq_true_iff.1 h with h | h
  · exact (enclosed_layout hk hqs h p).2.1
  · split at h
    · exact sealed_nil
    · have hdecorators : layout .decorators qs p = decorators qs p := List.append_nil _
      rw [hdecorators]
      rcases List.eq_nil_or_concat qs with rfl | ⟨rs, q, rfl⟩
      · exact sealed_nil
      · rw [List.concat_eq_append, decorators, List.flatMap_append, List.flatMap_singleton]
        exact (sealed_concat.2 rfl).append_right (by simp) _
    · cases h

end Printer

theorem Text.begins_before? (s t : Text) : (before? s t).getD t <+: t := by
  cases h : before? s t with
  | none => exact List.prefix_refl t
  | some u =>
    obtain ⟨r, hr, rfl⟩ := Option.map_eq_some_iff.1 h
    have ht : t = r.reverse ++ s := by
      rw [← List.reverse_reverse t, Block.after?_eq_some_iff.1 hr, List.reverse_append,
        List.reverse_reverse]
    exact ⟨s, ht.symm⟩

namespace Node

open Printer

variable {i : Nat} {n : Node}

@[simp] theorem node_piece (n : Node) : n.piece.node = n := by
  cases n
  rfl

/-- Separated trees are written with good pieces. -/
theorem good_piece (h : n.isSeparated = true) : n.piece.Good i := by
  induction n with
  | mk k s ps ih =>
    obtain ⟨hk, hps⟩ := isSeparated_mk.1 h
    have hnodes : (pieces ps).map Piece.node = ps := by
      simp [pieces_eq, Function.comp_def]
    have hkinds : (pieces ps).map Piece.kind = ps.map kind :=
      List.map_map.symm.trans (congrArg (List.map kind) hnodes)
    have hgood : ∀ q ∈ pieces ps, q.Good i := by
      rw [pieces_eq]
      exact List.forall_mem_map.2 fun m hm => ih m hm (hps m hm)
    have hload : (mk k s ps).load i = k.load i + Printer.loads i (pieces ps) := by
      rw [← loads_map_node, hnodes, load_mk]
    rw [← hkinds] at hk
    refine .mk hnodes.symm (hkinds ▸ hk) ⟨fun p => ?_, ?_, ?_, ?_⟩ hgood
    · exact hload ▸ tally_layout_le hk hgood p
    · exact clear_layout hk hgood
    · exact sealed_layout hk hgood
    · exact fun h p => (enclosed_layout hk hgood h p).2.2

/-- An expression by itself is written with no more placeholders than it has. -/
theorem tally_printExpression_le (h : n.isSeparated = true) :
    tally i n.printExpression ≤ n.load i := by
  have hgood : (mk .expressionStatement n.span [n]).piece.Good i :=
    good_piece (isSeparated_mk.2 ⟨rfl, List.forall_mem_singleton.2 h⟩)
  have hload : (mk .expressionStatement n.span [n]).load i = n.load i := by
    rw [load_mk, loads_cons, loads_nil]
    exact Nat.zero_add _
  generalize hstatement : mk .expressionStatement n.span [n] = m at hgood hload
  have hlines : tally i ((bodyLines [m.piece]).map fun l => l {}).flatten ≤ m.load i := by
    have h := tally_bodyLines_le (List.forall_mem_singleton.2 hgood) {}
    rw [Printer.loads_cons, Printer.loads_nil, Piece.load, node_piece] at h
    unfold bodyLines at h ⊢
    simpa using h
  calc tally i n.printExpression
    _ ≤ tally i m.printStatement := by
      unfold printExpression
      rw [hstatement]
      exact tally_le_of_prefix (Text.begins_before? _ _)
    _ ≤ tally i ((bodyLines [m.piece]).map fun l => l {}).flatten :=
      tally_le_of_prefix (begins_printStatement m)
    _ ≤ m.load i := hlines
    _ = n.load i := hload

/-- A pattern in a declaration is written with no more placeholders than it has. -/
theorem tally_printPattern_le (h : n.isSeparated = true) : tally i n.printPattern ≤ n.load i := by
  have hload := (good_piece h).tally_le (i := i) {}
  rwa [Piece.load, node_piece] at hload

end Node

end Unhook
