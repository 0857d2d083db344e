import Unhook.Proofs.Tally.Expression

/-!
# Placeholders in statements

What a statement is written as has no more placeholders than its spellings and its
parts, rule by rule. Lines begin with blanks, but for those of statements that stand by
themselves.
-/

namespace Unhook.Printer

open Block

variable {i : Nat} {t u : Text} {qs : List Piece} {a b c d e f q : Piece}

/-! ### Lines -/

theorem tally_line_le (hq : q.Good i) (p : Place) : tally i (line q p) ≤ q.load i := by
  rw [line, tally_tabs_append]
  exact hq.tally_le _

theorem clear_line (q : Piece) (p : Place) : Clear (line q p.deeper) := clear_tabs_succ _

/-- Lines in braces have the placeholders of each. -/
theorem tally_braces {lines : List (Place → Text)} {p : Place}
    (h : ∀ l ∈ lines, Clear (l p.deeper)) :
    tally i (braces lines p) = tallies i (lines.map fun l => l p.deeper) := by
  have hlines : tally i (lines.map fun l => l p.deeper).flatten =
      tallies i (lines.map fun l => l p.deeper) :=
    tally_flatten (List.forall_mem_map.2 h)
  unfold braces
  split
  · next hnil =>
    rw [List.isEmpty_iff.1 hnil]
    simp +decide
  · rw [← hlines]
    simp +decide

theorem tally_braces_le {f : Piece → Place → Text} {p : Place}
    (hclear : ∀ q ∈ qs, Clear (f q p.deeper)) (h : ∀ q ∈ qs, tally i (f q p.deeper) ≤ q.load i) :
    tally i (braces (qs.map f) p) ≤ loads i qs := by
  rw [tally_braces (List.forall_mem_map.2 hclear), List.map_map]
  exact tallies_map_le h

theorem tally_lines_le (hqs : ∀ q ∈ qs, q.Good i) (p : Place) :
    tally i (braces (qs.map line) p) ≤ loads i qs :=
  tally_braces_le (fun q _ => clear_line q p) fun q hq => tally_line_le (hqs q hq) _

theorem tally_blockText_le (hq : q.Good i) (p : Place) : tally i (blockText q p) ≤ q.load i :=
  Nat.le_trans (tally_lines_le (fun _ hr => hq.part hr) p) hq.loads_parts_le

theorem tally_bodyLines_le (hqs : ∀ q ∈ qs, q.Good i) (p : Place) :
    tallies i ((bodyLines qs).map fun l => l p) ≤ loads i qs := by
  cases qs with
  | nil => exact Nat.le_refl _
  | cons q qs =>
    rw [List.forall_mem_cons] at hqs
    have hrest : tallies i ((qs.map line).map fun l => l p) ≤ loads i qs := by
      rw [List.map_map]
      exact tallies_map_le fun r hr => tally_line_le (hqs.2 r hr) p
    unfold bodyLines
    dsimp only
    rw [List.map_cons, tallies_cons, loads_cons]
    refine Nat.add_le_add ?_ hrest
    -- A string that is put in parentheses is the first part of its statement.
    cases isStringStatement q.node with
    | false => exact tally_line_le hqs.1 p
    | true =>
      cases hparts : q.parts with
      | nil => exact tally_line_le hqs.1 p
      | cons e es =>
        have hload := hqs.1.loads_parts_le
        have he := (hqs.1.part (hparts ▸ List.mem_cons_self)).tally_le p.later
        rw [hparts, loads_cons] at hload
        simp +decide
        omega

theorem clear_bodyLines {l : Place → Text} (hl : l ∈ bodyLines qs) (p : Place) :
    Clear (l p.deeper) := by
  cases qs with
  | nil => cases hl
  | cons q qs =>
    rcases List.mem_cons.1 hl with hl | hl
    · rw [hl]
      cases isStringStatement q.node with
      | false => exact clear_line q p
      | true =>
        cases q.parts with
        | nil => exact clear_line q p
        | cons e es => simp +decide
    · obtain ⟨r, -, rfl⟩ := List.mem_map.1 hl
      exact clear_line r p

theorem tally_bodyBraces_le (hqs : ∀ q ∈ qs, q.Good i) (p : Place) :
    tally i (braces (bodyLines qs) p) ≤ loads i qs := by
  rw [tally_braces fun l hl => clear_bodyLines hl p]
  exact tally_bodyLines_le hqs _

theorem tally_memberLine_le (hq : q.Good i) (p : Place) : tally i (memberLine q p) ≤ q.load i := by
  have hline := tally_line_le hq p
  unfold memberLine
  split <;> simpa +decide using hline

theorem clear_memberLine (q : Piece) (p : Place) : Clear (memberLine q p.deeper) :=
  (clear_line q p).append (by split <;> simp +decide)

theorem tally_memberLines_le (hqs : ∀ q ∈ qs, q.Good i) (p : Place) :
    tally i (braces (qs.map memberLine) p) ≤ loads i qs :=
  tally_braces_le (fun q _ => clear_memberLine q p) fun q hq => tally_memberLine_le (hqs q hq) _

/-! ### Bodies -/

theorem tally_body_le (hq : q.Good i) (p : Place) : tally i (body q p) ≤ q.load i := by
  unfold body
  split
  · simp +decide
    exact tally_blockText_le hq p
  · simp +decide
  · simp +decide
    exact hq.tally_le _

theorem clear_body (q : Piece) (p : Place) : Clear (body q p) := by
  unfold body
  split <;> simp +decide

theorem tally_ifStatement_le (ha : a.Good i) (hb : b.Good i) (hc : c.Good i) (p : Place) :
    tally i (ifStatement a b c p) ≤ a.load i + b.load i + c.load i := by
  have ha := ha.tally_le p.fresh
  unfold ifStatement
  extract_lets more consequent alternative
  have hconsequent : tally i consequent ≤ b.load i := by
    have hblock := tally_blockText_le hb p
    have hline : tally i (braces [line b] p) ≤ loads i [b] :=
      tally_lines_le (List.forall_mem_singleton.2 hb) p
    have hbody := tally_body_le hb p
    rw [loads_cons, loads_nil, Nat.add_zero] at hline
    unfold consequent
    split
    · cases more <;> simpa +decide using hblock
    · split
      · cases more <;> simpa +decide using hline
      · cases more <;> simpa +decide [clear_body] using hbody
  have halternative : tally i alternative ≤ c.load i ∧ Clear alternative := by
    unfold alternative
    split
    · simp
    · simpa +decide using hc.tally_le _
    · simpa +decide using tally_body_le hc p
  simp +decide [halternative.2]
  omega

theorem tally_variablesText_le (kind : VarKind) (declare : Bool) (hqs : ∀ q ∈ qs, q.Good i)
    (p : Place) : tally i (variablesText kind declare qs p) ≤ loads i qs := by
  have hword : '_' ∉ kind.word := by
    cases kind <;> decide
  simpa +decide [variablesText, tally_append_of_not_mem hword] using tally_commas_le hqs p

theorem tally_loopStart_le (hq : q.Good i) (p : Place) : tally i (loopStart q p) ≤ q.load i := by
  unfold loopStart
  split
  · exact Nat.le_trans (tally_variablesText_le _ _ (fun _ hr => hq.part hr) p) hq.loads_parts_le
  · exact hq.tally_le p

theorem tally_loopTarget_le (hq : q.Good i) (p : Place) : tally i (loopTarget q p) ≤ q.load i := by
  unfold loopTarget
  split
  · exact Nat.le_trans (tally_variablesText_le _ _ (fun _ hr => hq.part hr) p) hq.loads_parts_le
  · rw [tally_wrap]
    exact hq.tally_le _

theorem tally_doWhile_le (ha : a.Good i) (hb : b.Good i) (p : Place) :
    tally i (doWhile a b p) ≤ a.load i + b.load i := by
  have hblock := tally_blockText_le ha p
  have hline := tally_line_le ha p.deeper
  have hb := hb.tally_le p.fresh
  unfold doWhile
  dsimp only
  split <;> simp +decide <;> omega

theorem tally_case_le (ha : a.Good i) (hqs : ∀ q ∈ qs, q.Good i) (p : Place) :
    tally i (case a qs p) ≤ a.load i + loads i qs := by
  have hlabel (t : Text) (ht : Clear t) : tally i ((if a.isAbsent then "default:".toList
      else "case ".toList ++ a.text p.fresh ++ ":".toList) ++ t) ≤ a.load i + tally i t := by
    split
    · simp +decide
    · simpa +decide using ha.tally_le p.fresh
  have hlines : tally i (qs.map fun q => line q p.deeper).flatten ≤ loads i qs := by
    rw [tally_flatten (List.forall_mem_map.2 fun q _ => clear_line q p)]
    exact tallies_map_le fun q hq => tally_line_le (hqs q hq) _
  have hmany : tally i ("\n".toList ++ (qs.map fun q => line q p.deeper).flatten) ≤ loads i qs := by
    simpa +decide using hlines
  rcases qs with _ | ⟨q, _ | ⟨r, qs⟩⟩
  · exact Nat.le_trans (hlabel _ (by simp +decide)) (Nat.add_le_add_left hmany _)
  · have hq := tally_body_le (hqs q List.mem_cons_self) p
    exact Nat.le_trans (hlabel _ (clear_body q p)) (Nat.add_le_add_left hq _)
  · exact Nat.le_trans (hlabel _ (by simp +decide)) (Nat.add_le_add_left hmany _)

theorem tally_field_le (form : MemberForm) (ha : a.Good i) (hb : b.Good i) (hc : c.Good i)
    (hd : d.Good i) (hsealed : ∀ p, Sealed (a.text p)) (p : Place) :
    tally i (field form a b c d p) ≤ a.load i + b.load i + c.load i + d.load i := by
  have hkey := tally_key_le form.computed hb p
  have hwords (t : Text) (accessor : Bool) : tally i (ordered (if accessor then accessorWords
      else fieldWords) form.modifiers ++ t) = tally i t := by
    cases accessor <;> exact tally_ordered_append (by decide) _
  unfold field
  extract_lets accessor
  simp only [List.append_assoc]
  rw [tally_append_of_sealed (hsealed p), hwords]
  generalize accessor = accessor
  simp +decide
  grind [Piece.Good.tally_le]

theorem tally_exported_le (hq : q.Good i) (ht : '_' ∉ t) (p : Place) :
    tally i (exported t q p) ≤ q.load i := by
  have hnote (inert : Bool) (u : Text) :
      tally i (given inert (inertNote ++ "\n".toList ++ tabs p.indent) ++ u) = tally i u := by
    cases inert <;> simp +decide
  unfold exported
  dsimp only
  rw [List.append_assoc, hnote, tally_append_of_not_mem ht]
  exact hq.tally_le _

theorem tally_exportDefault_le (hq : q.Good i) (p : Place) :
    tally i (exportDefault q p) ≤ q.load i := by
  unfold exportDefault
  extract_lets declaration
  split
  · exact tally_exported_le hq (by decide) p
  · simp +decide
    exact hq.tally_le _

theorem directiveQuote_cases (escaped : Bool) (t : Text) :
    directiveQuote escaped t = "'".toList ∨ directiveQuote escaped t = "\"".toList := by
  fun_induction directiveQuote escaped t with
  | case1 => exact .inl rfl
  | case2 _ _ ih => exact ih
  | case3 => exact .inr rfl
  | case4 => exact .inl rfl
  | case5 _ _ _ _ ih => exact ih

theorem tally_directive (raw : Text) : tally i (directive raw) = tally i raw := by
  unfold directive
  rcases directiveQuote_cases false raw with h | h <;> simp +decide [h]

/-- What a statement is written as has no more placeholders than its spellings and its
    parts. -/
theorem tally_statement_le {k : Kind} (hk : k.separates (qs.map Piece.kind) = true)
    (hqs : ∀ q ∈ qs, q.Good i) (p : Place) :
    tally i (statement k qs p) ≤ k.load i + loads i qs := by
  have hparts := List.forall_iff_forall_mem.2 hqs
  cases k
  case empty | debugger => exact Nat.zero_le _
  case directive raw =>
    refine Nat.le_add_right_of_le (Nat.le_of_eq ((tally_directive raw).trans ?_))
    simp [Kind.load, Kind.spellings]
  case importDeclaration | exportList | exportAll =>
    exact Nat.le_add_right_of_le (Nat.le_of_eq (by simp [Kind.load, Kind.spellings]; rfl))
  case breakStatement label | continueStatement label =>
    delta statement
    cases label <;> simp +decide [Kind.load, Kind.spellings]
  -- Any number of parts.
  case functionBody => exact Nat.le_add_left_of_le (tally_bodyBraces_le hqs p)
  case classBody => exact Nat.le_add_left_of_le (tally_memberLines_le hqs p)
  case block | staticBlock =>
    have hlines := tally_lines_le hqs p
    delta statement
    dsimp only
    simp +decide
    omega
  case declaration kind declare =>
    have h := tally_variablesText_le kind declare hqs p.later
    delta statement
    dsimp only
    simp +decide
    omega
  case switch =>
    cases qs with
    | nil => exact Nat.zero_le _
    | cons a qs =>
      rw [List.forall_mem_cons] at hqs
      have ha := hqs.1.tally_le p.fresh
      have hlines := tally_lines_le hqs.2 p
      delta statement
      dsimp only
      simp +decide
      omega
  case case =>
    cases qs with
    | nil => exact Nat.zero_le _
    | cons a qs =>
      rw [List.forall_mem_cons] at hqs
      exact Nat.le_add_left_of_le (tally_case_le hqs.1 hqs.2 p)
  -- One part.
  case expressionStatement | returnStatement | throwStatement | labeled | exportDeclaration
      | exportDefault =>
    rcases qs with _ | ⟨a, _ | ⟨_, _⟩⟩
    case cons.nil =>
      have ha := hqs a List.mem_cons_self
      have hbody := tally_body_le ha p
      have hexported := tally_exported_le (t := "export ".toList) ha (by decide) p
      have hdefault := tally_exportDefault_le ha p
      delta statement
      dsimp only
      simp +decide [Kind.load, Kind.spellings]
      grind [Piece.Good.tally_le]
    all_goals exact Nat.zero_le _
  -- Two parts.
  case whileStatement | withStatement | doWhile =>
    rcases qs with _ | ⟨a, _ | ⟨b, _ | ⟨_, _⟩⟩⟩
    case cons.cons.nil =>
      obtain ⟨ha, hb⟩ := hparts
      have hbody := tally_body_le hb p
      have hdo := tally_doWhile_le ha hb p
      delta statement
      dsimp only
      simp +decide
      grind [Piece.Good.tally_le]
    all_goals exact Nat.zero_le _
  -- Three parts.
  case declarator | ifStatement | forIn | forOf =>
    rcases qs with _ | ⟨a, _ | ⟨b, _ | ⟨c, _ | ⟨_, _⟩⟩⟩⟩
    case cons.cons.cons.nil =>
      obtain ⟨ha, hb, hc⟩ := hparts
      have hbody := tally_body_le hc p
      have hif := tally_ifStatement_le ha hb hc p
      delta statement
      dsimp only
      simp +decide
      grind [Piece.Good.tally_le, tally_loopTarget_le]
    all_goals exact Nat.zero_le _
  case tryStatement =>
    rcases qs with _ | ⟨a, _ | ⟨b, _ | ⟨c, _ | ⟨_, _⟩⟩⟩⟩
    case cons.cons.cons.nil =>
      obtain ⟨ha, hb, hc⟩ := hparts
      have ha := tally_blockText_le ha p
      have hb := hb.tally_le p.later
      have hc := tally_blockText_le hc p
      delta statement
      dsimp only
      cases c.isAbsent <;> simp +decide <;> split <;> omega
    all_goals exact Nat.zero_le _
  case catchClause =>
    rcases qs with _ | ⟨a, _ | ⟨b, _ | ⟨c, _ | ⟨_, _⟩⟩⟩⟩
    case cons.cons.cons.nil =>
      obtain ⟨ha, hb, hc⟩ := hparts
      have ha := ha.tally_le p.later
      have hblock := tally_blockText_le hc p
      delta statement
      dsimp only
      cases a.isAbsent <;> simp +decide <;> omega
    all_goals exact Nat.zero_le _
  case method form =>
    rcases qs with _ | ⟨a, _ | ⟨b, _ | ⟨c, _ | ⟨_, _⟩⟩⟩⟩
    case cons.cons.cons.nil =>
      obtain ⟨ha, hb, hc⟩ := hparts
      have hsealed := ha.closed hk p
      have ha := ha.tally_le p
      have hkey := tally_key_le form.computed hb p
      have hmethod := tally_method_le (t := key form.computed b p ++ given form.optional "?".toList)
        form.role hc p
      delta statement
      dsimp only
      simp +decide [hsealed, tally_ordered_append] at hmethod ⊢
      omega
    all_goals exact Nat.zero_le _
  -- Four parts.
  case forStatement =>
    rcases qs with _ | ⟨a, _ | ⟨b, _ | ⟨c, _ | ⟨d, _ | ⟨_, _⟩⟩⟩⟩⟩
    case cons.cons.cons.cons.nil =>
      obtain ⟨ha, hb, hc, hd⟩ := hparts
      have hbody := tally_body_le hd p
      delta statement
      dsimp only
      simp +decide
      grind [Piece.Good.tally_le, tally_loopStart_le]
    all_goals exact Nat.zero_le _
  case field form =>
    rcases qs with _ | ⟨a, _ | ⟨b, _ | ⟨c, _ | ⟨d, _ | ⟨_, _⟩⟩⟩⟩⟩
    case cons.cons.cons.cons.nil =>
      obtain ⟨ha, hb, hc, hd⟩ := hparts
      have h := tally_field_le form ha hb hc hd (ha.closed hk) p
      simp only [loads_cons, loads_nil]
      exact Nat.le_trans h (by omega)
    all_goals exact Nat.zero_le _
  all_goals exact Nat.zero_le _

end Unhook.Printer
