import Unhook.Proofs.Tally.Statement

/-!
# Placeholders in types

What a type is written as, or a declaration of one, has no more placeholders than its
spellings and its parts, rule by rule.
-/

namespace Unhook.Printer

open Block

variable {i : Nat} {t u : Text} {qs : List Piece} {a b c d q : Piece}

@[simp] theorem tally_words_append (ws : List Text) :
    tally i (words ws ++ u) = tallies i ws + tally i u := by
  induction ws with
  | nil => simp [words]
  | cons w ws ih =>
    have hwords : words (w :: ws) ++ u = w ++ ' ' :: (words ws ++ u) := by simp [words]
    rw [hwords, tally_append (by simp +decide), tally_cons (by decide), ih, tallies_cons,
      Nat.add_assoc]

@[simp] theorem tally_words (ws : List Text) : tally i (words ws) = tallies i ws := by
  rw [← List.append_nil (words ws), tally_words_append, tally_nil, Nat.add_zero]

theorem tally_signature_le (ha : a.Good i) (hb : b.Good i) (hc : c.Good i) (ht : '_' ∉ t)
    (p : Place) : tally i (signature a b c t p) ≤ a.load i + b.load i + c.load i := by
  simp +decide [signature, tally_ifPresent ht]
  grind [Piece.Good.tally_le]

theorem clear_signature (ha : ∀ p, Clear (a.text p)) (p : Place) : Clear (signature a b c t p) := by
  simp +decide [signature, ha]

theorem tally_members_le (hqs : ∀ q ∈ qs, q.Good i) (p : Place) :
    tally i (members qs p) ≤ loads i qs := by
  refine tally_braces_le (fun q _ => ?_) fun q hq => ?_
  · rw [List.append_assoc]
    exact clear_tabs_succ _
  · simpa +decide using (hqs q hq).tally_le _

theorem tally_union_le (hqs : ∀ q ∈ qs, q.Good i) (p : Place) :
    tally i (union qs p) ≤ loads i qs := by
  unfold union
  split
  · next q => exact (hqs q List.mem_cons_self).tally_le _
  · rw [tally_join (by simp +decide) (by simp) (by simp)]
    refine tallies_map_le fun q hq => ?_
    rw [tally_wrap]
    exact (hqs q hq).tally_le _

theorem tally_enumMembers_le (hqs : ∀ q ∈ qs, q.Good i) (p : Place) :
    tally i (enumMembers qs p) ≤ loads i qs := by
  unfold enumMembers
  split
  · simp +decide
  · simp +decide
    exact tally_itemLines_le (fun q hq p => (hqs q hq).tally_le _) _

theorem tally_typeParameters_le (hqs : ∀ q ∈ qs, q.Good i) (p : Place) :
    tally i (typeParameters qs p) ≤ loads i qs := by
  unfold typeParameters
  split
  · next q =>
    simp +decide
    exact (hqs q List.mem_cons_self).tally_le _
  · simp +decide
    exact tally_itemLines_le (fun q hq p => (hqs q hq).tally_le _) _

/-- What a type is written as has no more placeholders than its spellings and its
    parts. -/
theorem tally_type_le {k : Kind} (hk : k.separates (qs.map Piece.kind) = true)
    (hqs : ∀ q ∈ qs, q.Good i) (p : Place) : tally i (type k qs p) ≤ k.load i + loads i qs := by
  have hparts := List.forall_iff_forall_mem.2 hqs
  cases k
  case typeWord n | typeName n =>
    exact Nat.le_add_right_of_le (Nat.le_of_eq (by simp [Kind.load, Kind.spellings]; rfl))
  case exportNamespace n =>
    delta type
    simp +decide [Kind.load, Kind.spellings]
  -- Any number of parts.
  case typeArguments | tuple | heritage =>
    have hcommas := tally_commas_le hqs p.fresh
    delta type
    dsimp only
    simp +decide
    omega
  case typeParameters => exact Nat.le_add_left_of_le (tally_typeParameters_le hqs p)
  case union => exact Nat.le_add_left_of_le (tally_union_le hqs p)
  case typeLiteral | interfaceBody => exact Nat.le_add_left_of_le (tally_members_le hqs p)
  case moduleBlock => exact Nat.le_add_left_of_le (tally_bodyBraces_le hqs p)
  case intersection =>
    refine Nat.le_add_left_of_le ?_
    delta type
    dsimp only
    rw [tally_join (by simp +decide) (by simp) (by simp)]
    exact tallies_map_le fun q hq => (hqs q hq).tally_le _
  case templateType ts =>
    have hlength := of_decide_eq_true (p := ts.length ≤ (qs.map Piece.kind).length + 1) hk
    rw [List.length_map] at hlength
    have h := tally_template_le (f := id) hqs hlength p
    delta type
    dsimp only
    simp +decide [Kind.load, Kind.spellings] at h ⊢
    exact h
  case enum mods n =>
    have h := tally_enumMembers_le hqs p.later
    delta type
    dsimp only
    simp +decide [Kind.load, Kind.spellings]
    omega
  -- One part.
  case qualified n | arrayType | literalType | typeOperator w | inferType | predicate asserts n
      | importEquals n | externalModule | exportAssignment =>
    rcases qs with _ | ⟨a, _ | ⟨_, _⟩⟩
    case cons.nil =>
      have ha := (hqs a List.mem_cons_self).tally_le p.fresh
      delta type
      dsimp only
      simp +decide [Kind.load, Kind.spellings]
      grind
    all_goals exact Nat.zero_le _
  case tupleMember label optional rest =>
    rcases qs with _ | ⟨a, _ | ⟨_, _⟩⟩
    case cons.nil =>
      have ha := (hqs a List.mem_cons_self).tally_le p.fresh
      delta type
      dsimp only
      cases label <;> simp +decide [Kind.load, Kind.spellings] <;> omega
    all_goals exact Nat.zero_le _
  -- Two parts.
  case indexedType | propertySignature form | enumMember computed =>
    rcases qs with _ | ⟨a, _ | ⟨b, _ | ⟨_, _⟩⟩⟩
    case cons.cons.nil =>
      obtain ⟨ha, hb⟩ := hparts
      delta type
      dsimp only
      simp +decide [Kind.load, Kind.spellings]
      grind [Piece.Good.tally_le, tally_key_le]
    all_goals exact Nat.zero_le _
  case typeReference | typeQuery =>
    rcases qs with _ | ⟨a, _ | ⟨b, _ | ⟨_, _⟩⟩⟩
    case cons.cons.nil =>
      obtain ⟨ha, hb⟩ := hparts
      have hclear := hb.clear hk p.fresh
      delta type
      dsimp only
      simp +decide [hclear]
      grind [Piece.Good.tally_le]
    all_goals exact Nat.zero_le _
  case typeAlias declare n =>
    rcases qs with _ | ⟨a, _ | ⟨b, _ | ⟨_, _⟩⟩⟩
    case cons.cons.nil =>
      obtain ⟨ha, hb⟩ := hparts
      have hclear := ha.clear hk p.fresh
      delta type
      dsimp only
      simp +decide [Kind.load, Kind.spellings, hclear]
      grind [Piece.Good.tally_le]
    all_goals exact Nat.zero_le _
  case typeParameter mods n | indexSignature mods n =>
    rcases qs with _ | ⟨a, _ | ⟨b, _ | ⟨_, _⟩⟩⟩
    case cons.cons.nil =>
      obtain ⟨ha, hb⟩ := hparts
      delta type
      dsimp only
      simp only [List.append_assoc]
      rw [tally_ordered_append (by decide)]
      simp +decide [Kind.load, Kind.spellings]
      grind [Piece.Good.tally_le]
    all_goals exact Nat.zero_le _
  case namespace_ mods w =>
    rcases qs with _ | ⟨a, _ | ⟨b, _ | ⟨_, _⟩⟩⟩
    case cons.cons.nil =>
      obtain ⟨ha, hb⟩ := hparts
      delta type
      dsimp only
      cases b.isAbsent <;> simp +decide [Kind.load, Kind.spellings] <;> grind [Piece.Good.tally_le]
    all_goals exact Nat.zero_le _
  case markedType sign before =>
    rcases qs with _ | ⟨a, _ | ⟨_, _⟩⟩
    case cons.nil =>
      have ha := (hqs a List.mem_cons_self).tally_le p.fresh
      have hsign (c : Char) (hc : c ∈ sign) : inMark c = false := by
        simpa using List.any_eq_false.1 (Bool.not_eq_true' _ ▸ hk) c hc
      have hclear : Clear sign := fun c hc => hsign c (List.mem_of_mem_head? hc)
      have hsealed : Sealed sign := fun c hc => hsign c (List.mem_of_mem_getLast? hc)
      delta type
      dsimp only
      cases before <;> simp [Kind.load, Kind.spellings, hclear, hsealed] <;> omega
    all_goals exact Nat.zero_le _
  -- Three parts.
  case functionType | callSignature =>
    rcases qs with _ | ⟨a, _ | ⟨b, _ | ⟨c, _ | ⟨_, _⟩⟩⟩⟩
    case cons.cons.cons.nil =>
      obtain ⟨ha, hb, hc⟩ := hparts
      delta type
      dsimp only
      simp +decide
      grind [tally_signature_le]
    all_goals exact Nat.zero_le _
  case mappedType n readonly_ optional =>
    rcases qs with _ | ⟨a, _ | ⟨b, _ | ⟨c, _ | ⟨_, _⟩⟩⟩⟩
    case cons.cons.cons.nil =>
      obtain ⟨ha, hb, hc⟩ := hparts
      delta type
      dsimp only
      cases readonly_ <;> cases optional <;> simp +decide [Kind.load, Kind.spellings] <;>
        grind [Piece.Good.tally_le]
    all_goals exact Nat.zero_le _
  case interface n =>
    rcases qs with _ | ⟨a, _ | ⟨b, _ | ⟨c, _ | ⟨_, _⟩⟩⟩⟩
    case cons.cons.cons.nil =>
      obtain ⟨ha, hb, hc⟩ := hparts
      have hclear := ha.clear hk p.fresh
      delta type
      dsimp only
      simp +decide [Kind.load, Kind.spellings, hclear]
      grind [Piece.Good.tally_le]
    all_goals exact Nat.zero_le _
  -- Four parts.
  case conditionalType =>
    rcases qs with _ | ⟨a, _ | ⟨b, _ | ⟨c, _ | ⟨d, _ | ⟨_, _⟩⟩⟩⟩⟩
    case cons.cons.cons.cons.nil =>
      obtain ⟨ha, hb, hc, hd⟩ := hparts
      delta type
      dsimp only
      simp +decide
      grind [Piece.Good.tally_le]
    all_goals exact Nat.zero_le _
  case importType =>
    rcases qs with _ | ⟨a, _ | ⟨b, _ | ⟨c, _ | ⟨d, _ | ⟨_, _⟩⟩⟩⟩⟩
    case cons.cons.cons.cons.nil =>
      obtain ⟨ha, hb, hc, hd⟩ := hparts
      have hclear := hd.clear hk p.fresh
      delta type
      dsimp only
      simp +decide [hclear]
      grind [Piece.Good.tally_le]
    all_goals exact Nat.zero_le _
  case methodSignature form =>
    rcases qs with _ | ⟨a, _ | ⟨b, _ | ⟨c, _ | ⟨d, _ | ⟨_, _⟩⟩⟩⟩⟩
    case cons.cons.cons.cons.nil =>
      obtain ⟨ha, hb, hc, hd⟩ := hparts
      have hclear (t : Text) : Clear (signature b c d t p) := clear_signature (hb.clear hk) p
      have hkey := tally_key_le form.computed ha p
      delta type
      dsimp only
      simp +decide [hclear]
      grind [tally_signature_le]
    all_goals exact Nat.zero_le _
  all_goals exact Nat.zero_le _

end Unhook.Printer
