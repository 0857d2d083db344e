import Unhook.Proofs.Tally.Basic

/-!
# Placeholders in expressions

What an expression is written as has no more placeholders than its spellings and its
parts, rule by rule.
-/

namespace Unhook.Printer

open Block

variable {i : Nat} {t u : Text} {qs : List Piece} {p : Place}

variable {a b c d e f : Piece}

theorem tally_array_le (hqs : ∀ q ∈ qs, q.Good i) (p : Place) :
    tally i (array qs p) ≤ loads i qs := by
  have hitems (qs : List Piece) (hqs : ∀ q ∈ qs, q.Good i) (p : Place) :
      tallies i (qs.map fun q => q.text (p.fresh Level.comma)) ≤ loads i qs :=
    tallies_map_le fun q hq => (hqs q hq).tally_le _
  unfold array
  extract_lets items last withLast
  have hlast : last = ",".toList ∨ last = [] := by
    unfold last
    split
    · exact .inl rfl
    · exact .inr rfl
  split
  · rcases List.eq_nil_or_concat qs with rfl | ⟨rs, q, rfl⟩
    · simp +decide [withLast, items, tally_itemLines]
    · have hrs := hitems rs (fun r hr => hqs r (by simp [hr])) p.deeper
      have hq := (hqs q (by simp)).tally_le (p.deeper.fresh Level.comma)
      simp +decide [withLast, items, tally_itemLines]
      rcases hlast with hlast | hlast <;> simp +decide [hlast] <;> exact Nat.add_le_add hrs hq
  · have hjoin := hitems qs hqs p
    rw [← tally_join (s := ", ".toList) (by simp +decide) (by simp) (by simp)] at hjoin
    rcases hlast with hlast | hlast <;> simp +decide [hlast, items] <;> exact hjoin

theorem tally_object_le (hqs : ∀ q ∈ qs, q.Good i) (p : Place) :
    tally i (object qs p) ≤ loads i qs := by
  rw [object, tally_wrap]
  split
  · simp +decide
  · next q =>
    have hq := hqs q List.mem_cons_self
    simp +decide
    grind [Piece.Good.tally_le]
  · simp +decide
    exact tally_itemLines_le (fun q hq p => (hqs q hq).tally_le _) _

theorem tally_key_le (computed : Bool) (ha : a.Good i) (p : Place) :
    tally i (key computed a p) ≤ a.load i := by
  unfold key
  split
  · simp +decide
    exact ha.tally_le _
  · exact ha.tally_le _

theorem tally_arrayElements_le (hqs : ∀ q ∈ qs, q.Good i) (p : Place) :
    tally i (arrayElements qs p) ≤ loads i qs := by
  unfold arrayElements
  dsimp only
  split
  · simp +decide
    exact tally_commas_le hqs _
  · simp +decide
    exact tally_commas_le hqs _

theorem tally_decorators_le (hqs : ∀ q ∈ qs, q.Good i) (p : Place) :
    tally i (decorators qs p) ≤ loads i qs := by
  rw [decorators, List.flatMap_def, tally_flatten]
  · refine tallies_map_le fun q hq => ?_
    simp +decide
    exact (hqs q hq).tally_le _
  · intro t ht
    obtain ⟨q, -, rfl⟩ := List.mem_map.1 ht
    simp +decide

theorem tally_sequence_le (hqs : ∀ q ∈ qs, q.Good i) (p : Place) :
    tally i (sequence qs p) ≤ loads i qs := by
  rw [sequence, tally_wrap]
  split
  · exact Nat.zero_le _
  · next q qs =>
    rw [List.forall_mem_cons] at hqs
    rw [tally_join (by simp +decide) (by simp) (by simp), tallies_cons]
    exact Nat.add_le_add (hqs.1.tally_le _) (tallies_map_le fun r hr => (hqs.2 r hr).tally_le _)

theorem tally_template_le {f : Text → Text} {ts : List Text} (hqs : ∀ q ∈ qs, q.Good i)
    (hlength : ts.length ≤ qs.length + 1) (p : Place) :
    tally i (template f ts qs p) ≤ tallies i (ts.map f) + loads i qs := by
  fun_induction template f ts qs p with
  | case1 t ts q qs p ih =>
    rw [List.forall_mem_cons] at hqs
    have hrest := ih hqs.2 (by simpa using hlength)
    have hq := hqs.1.tally_le p.fresh
    simp +decide
    omega
  | case2 ts qs p h =>
    -- The texts or the parts are at an end, and there is no more than one text.
    cases ts with
    | nil => exact Nat.zero_le _
    | cons t ts =>
      cases qs with
      | nil =>
        obtain rfl : ts = [] := List.eq_nil_of_length_eq_zero (by simpa using hlength)
        simp
      | cons q qs => exact (h _ _ _ _ rfl rfl).elim

theorem tally_functionEnd_le (ha : a.Good i) (hb : b.Good i) (p : Place) :
    tally i (functionEnd a b p) ≤ a.load i + b.load i := by
  unfold functionEnd
  split
  · simp +decide
    grind [Piece.Good.tally_le]
  · simp +decide
    grind [Piece.Good.tally_le]

@[simp] theorem tally_roleWord_append (role : Role) : tally i (roleWord role ++ u) = tally i u := by
  cases role <;> simp +decide [roleWord]

/-- What is known of the parts of a function. -/
theorem Piece.Good.function {form : FunctionForm} {n ts ps r body : Piece} (hf : f.Good i)
    (hk : f.kind = .function form) (hparts : f.parts = [n, ts, ps, r, body]) :
    (n.Good i ∧ ts.Good i ∧ ps.Good i ∧ r.Good i ∧ body.Good i) ∧ (∀ p, Clear (ts.text p)) ∧
      f.load i = n.load i + ts.load i + ps.load i + r.load i + body.load i := by
  have hpart (q : Piece) (hq : q ∈ f.parts) : q.Good i := hf.part hq
  have hload := hf.load_eq
  have hsep := hf.separates
  rw [hparts] at hpart hload hsep
  rw [hk] at hload hsep
  simp only [List.forall_mem_cons] at hpart
  obtain ⟨hn, hts, hps, hr, hbody, -⟩ := hpart
  refine ⟨⟨hn, hts, hps, hr, hbody⟩, hts.clear hsep, ?_⟩
  have hzero : (Kind.function form).load i = 0 := rfl
  simp only [hload, hzero, loads_cons, loads_nil]
  omega

theorem tally_method_le (role : Role) (hf : f.Good i) (p : Place) :
    tally i (method role t f p) ≤ tally i t + f.load i := by
  unfold method
  split
  · next form n ts ps r body hk hparts =>
    obtain ⟨⟨-, hts, hps, hr, hbody⟩, hclear, hload⟩ := hf.function hk hparts
    have hend := tally_functionEnd_le hr hbody p
    simp +decide [methodHead, hclear]
    grind [Piece.Good.tally_le]
  · exact Nat.zero_le _

theorem tally_objectMethod_le (role : Role) (hf : f.Good i) (p : Place) :
    tally i (objectMethod role t f p) ≤ tally i t + f.load i := by
  unfold objectMethod
  split
  · next form n ts ps r body hk hparts =>
    obtain ⟨⟨-, hts, hps, hr, hbody⟩, hclear, hload⟩ := hf.function hk hparts
    have hparams : tally i (commas (ps.parts.filter (·.kind ≠ .thisParam)) p.later) ≤ ps.load i :=
      calc tally i (commas (ps.parts.filter (·.kind ≠ .thisParam)) p.later)
        _ ≤ loads i (ps.parts.filter (·.kind ≠ .thisParam)) :=
          tally_commas_le (fun q hq => hps.part (List.mem_filter.1 hq).1) _
        _ ≤ loads i ps.parts := loads_filter_le _ _
        _ ≤ ps.load i := hps.loads_parts_le
    simp +decide [methodHead, hclear] at hparams ⊢
    grind [Piece.Good.tally_le]
  · exact Nat.zero_le _

theorem tally_property_le (form : PropertyForm) (ha : a.Good i) (hb : b.Good i) (p : Place) :
    tally i (property form a b p) ≤ a.load i + b.load i := by
  have hkey (computed : Bool) := tally_key_le computed ha p
  have hwritten (same computed : Bool) : tally i (given (!same) (key computed a p ++ ": ".toList) ++
      b.text (p.fresh Level.comma)) ≤ a.load i + b.load i := by
    have hb := hb.tally_le (p.fresh Level.comma)
    cases same
    · simp +decide
      grind
    · exact Nat.le_trans hb (Nat.le_add_left _ _)
  unfold property
  split
  · exact Nat.le_trans (tally_objectMethod_le _ hb p) (Nat.add_le_add_right (hkey _) _)
  · exact hwritten _ _

theorem tally_patternProperty_le (computed : Bool) (ha : a.Good i) (hb : b.Good i) (p : Place) :
    tally i (patternProperty computed a b p) ≤ a.load i + b.load i := by
  have hkey := tally_key_le computed ha p
  have hb := hb.tally_le p.later
  unfold patternProperty
  dsimp only
  cases (keyWord? a).isSome && decide (patternName? b.node = keyWord? a)
  · simp +decide
    omega
  · exact Nat.le_trans hb (Nat.le_add_left _ _)

theorem tally_arrayPattern_le (hqs : ∀ q ∈ qs, q.Good i) (p : Place) :
    tally i (arrayPattern qs p) ≤ loads i qs := by
  have helements := tally_arrayElements_le hqs p
  unfold arrayPattern
  dsimp only
  split <;> simpa +decide using helements

theorem tally_function_le (form : FunctionForm) (ha : a.Good i) (hb : b.Good i) (hc : c.Good i)
    (hd : d.Good i) (he : e.Good i) (hclear : ∀ p, Clear (b.text p)) (p : Place) :
    tally i (function form a b c d e p) ≤ a.load i + b.load i + c.load i + d.load i + e.load i := by
  have hnote (p : Place) (t : Text) : tally i ((if !form.inert then []
      else if !form.declaration then inertNote ++ " ".toList
      else given (p.opening ≠ .exported) (inertNote ++ "\n".toList ++ tabs p.indent)) ++ t) =
      tally i t := by
    split
    · rfl
    · split
      · simp +decide
      · cases decide (p.opening ≠ .exported) <;> simp +decide
  have hend (p : Place) := tally_functionEnd_le hd he p
  refine Nat.le_trans (Nat.le_of_eq (hnote p _)) ?_
  rw [tally_wrap]
  split
  · simp +decide [hclear]
    grind [Piece.Good.tally_le]
  · simp +decide [hclear]
    grind [Piece.Good.tally_le]

theorem tally_arrow_le (form : ArrowForm) (ha : a.Good i) (hb : b.Good i) (hc : c.Good i)
    (hd : d.Good i) (p : Place) :
    tally i (arrow form a b c d p) ≤ a.load i + b.load i + c.load i + d.load i := by
  rw [arrow, tally_wrap]
  cases form.inert
  · split <;> simp +decide <;> grind [Piece.Good.tally_le]
  · split <;> simp +decide <;> grind [Piece.Good.tally_le]

theorem tally_class_le (form : ClassForm) {g : Piece} (ha : a.Good i) (hb : b.Good i)
    (hc : c.Good i) (hd : d.Good i) (he : e.Good i) (hf : f.Good i) (hg : g.Good i)
    (hc' : ∀ p, Clear (c.text p)) (he' : ∀ p, Clear (e.text p)) (p : Place) :
    tally i (class_ form a b c d e f g p) ≤ a.load i + b.load i + c.load i + d.load i +
      e.load i + f.load i + g.load i := by
  rw [class_, tally_wrap]
  cases b.isAbsent
  · simp (disch := simp +decide [hc', he'])
    grind [Piece.Good.tally_le]
  · simp (disch := simp +decide [he'])
    grind [Piece.Good.tally_le]

theorem tally_unary_le (op : UnaryOp) (he : e.Good i) (p : Place) :
    tally i (unary op e p) ≤ e.load i := by
  have hsymbol : '_' ∉ op.symbol := by
    cases op <;> decide
  rw [unary, tally_wrap]
  dsimp only
  split
  · simp +decide
    exact he.tally_le _
  · split
    · rw [List.append_assoc, tally_append_of_not_mem hsymbol]
      simp +decide
      exact he.tally_le _
    · rw [tally_append_of_not_mem hsymbol]
      exact he.tally_le _

theorem tally_update_le (increment before : Bool) (he : e.Good i) (p : Place) :
    tally i (update increment before e p) ≤ e.load i := by
  unfold update
  cases increment <;> cases before <;> simp +decide <;> exact he.tally_le _

theorem tally_privateIn_le (ha : a.Good i) (hb : b.Good i) (p : Place) :
    tally i (privateIn a b p) ≤ a.load i + b.load i := by
  simp +decide [privateIn]
  exact Nat.add_le_add (ha.tally_le _) (hb.tally_le _)

theorem BinaryOp.not_mem_symbol (op : BinaryOp) : '_' ∉ op.symbol := by
  cases op <;> decide

theorem tally_binary_le (op : BinaryOp) (ha : a.Good i) (hb : b.Good i) (p : Place) :
    tally i (binary op a b p) ≤ a.load i + b.load i := by
  rw [binary, tally_wrap]
  dsimp only
  generalize operandLevels op a.node b.node = levels
  simp +decide [tally_append_of_not_mem (BinaryOp.not_mem_symbol op)]
  exact Nat.add_le_add (ha.tally_le _) (hb.tally_le _)

theorem tally_assign_le (op : Option BinaryOp) (ha : a.Good i) (hb : b.Good i) (p : Place) :
    tally i (assign op a b p) ≤ a.load i + b.load i := by
  have hsymbol : '_' ∉ assignSymbol op := by
    cases op with
    | none => decide
    | some op => simp [assignSymbol, BinaryOp.not_mem_symbol]
  simp +decide [assign, tally_append_of_not_mem hsymbol]
  exact Nat.add_le_add (ha.tally_le _) (hb.tally_le _)

theorem tally_conditional_le (ha : a.Good i) (hb : b.Good i) (hc : c.Good i) (p : Place) :
    tally i (conditional a b c p) ≤ a.load i + b.load i + c.load i := by
  simp +decide [conditional]
  grind [Piece.Good.tally_le]

theorem tally_arguments_le (hqs : ∀ q ∈ qs, q.Good i) (p : Place) :
    tally i (arguments qs p) ≤ loads i qs := by
  simp +decide [arguments]
  exact tally_commas_le hqs _

theorem clear_arguments (p : Place) : Clear (arguments qs p) := by
  simp +decide [arguments]

theorem tally_called_le (ha : a.Good i) (hb : b.Good i) (hqs : ∀ q ∈ qs, q.Good i)
    (p₁ p₂ p₃ : Place) : tally i (a.text p₁) + (tally i (b.text p₂) + tally i (arguments qs p₃)) ≤
      a.load i + b.load i + loads i qs := by
  have ha := ha.tally_le p₁
  have hb := hb.tally_le p₂
  have hargs := tally_arguments_le hqs p₃
  omega

theorem tally_call_le (link : Link) (pure : Bool) (ha : a.Good i) (hb : b.Good i)
    (hqs : ∀ q ∈ qs, q.Good i) (hclear : ∀ p, Clear (b.text p)) (p : Place) :
    tally i (call link pure a b qs p) ≤ a.load i + b.load i + loads i qs := by
  rw [call, tally_wrap, tally_wrap]
  cases pure <;> simp +decide [hclear, clear_arguments] <;> exact tally_called_le ha hb hqs _ _ _

theorem tally_new_le (pure : Bool) (ha : a.Good i) (hb : b.Good i) (hqs : ∀ q ∈ qs, q.Good i)
    (hclear : ∀ p, Clear (b.text p)) (p : Place) :
    tally i (new pure a b qs p) ≤ a.load i + b.load i + loads i qs := by
  rw [new, tally_wrap]
  cases pure <;> simp +decide [hclear, clear_arguments] <;> exact tally_called_le ha hb hqs _ _ _

theorem tally_member_le (link : Link) (name : Text) (ha : a.Good i) (p : Place) :
    tally i (member link name a p) ≤ tally i name + a.load i := by
  rw [member, tally_wrap]
  dsimp only
  have ha (p : Place) := ha.tally_le p
  split
  · simp +decide
    grind
  · split <;> simp +decide <;> grind

theorem tally_privateMember_le (link : Link) (name : Text) (ha : a.Good i) (p : Place) :
    tally i (privateMember link name a p) ≤ tally i name + a.load i := by
  rw [privateMember, tally_wrap]
  split <;> simp +decide <;> grind [Piece.Good.tally_le]

theorem tally_index_le (link : Link) (ha : a.Good i) (hb : b.Good i) (p : Place) :
    tally i (index link a b p) ≤ a.load i + b.load i := by
  simp +decide [index]
  exact Nat.add_le_add (ha.tally_le _) (hb.tally_le _)

theorem tally_param_le (mods : List Text) (optional : Bool) (ha : a.Good i) (hb : b.Good i)
    (hc : c.Good i) (hd : d.Good i) (hsealed : ∀ p, Sealed (a.text p)) (p : Place) :
    tally i (param mods optional a b c d p) ≤ a.load i + b.load i + c.load i + d.load i := by
  simp +decide [param, hsealed, tally_ordered_append]
  grind [Piece.Good.tally_le]

/-- What an expression is written as has no more placeholders than its spellings and its
    parts. -/
theorem tally_expression_le {k : Kind} (hk : k.separates (qs.map Piece.kind) = true)
    (hqs : ∀ q ∈ qs, q.Good i) (p : Place) :
    tally i (expression k qs p) ≤ k.load i + loads i qs := by
  have hparts := List.forall_iff_forall_mem.2 hqs
  cases k
  case identifier | target | binding | word | privateName | number | numeral | bigint | string
      | regex | this | superRef | null | importMeta | newTarget =>
    delta expression
    dsimp only
    simp +decide [Kind.load, Kind.spellings]
  case boolean b =>
    delta expression
    cases b <;> simp +decide
  -- Any number of parts.
  case array => exact Nat.le_add_left_of_le (tally_array_le hqs p)
  case object => exact Nat.le_add_left_of_le (tally_object_le hqs p)
  case params => exact Nat.le_add_left_of_le (tally_commas_le hqs _)
  case decorators => exact Nat.le_add_left_of_le (tally_decorators_le hqs p)
  case sequence => exact Nat.le_add_left_of_le (tally_sequence_le hqs p)
  case arrayPattern => exact Nat.le_add_left_of_le (tally_arrayPattern_le hqs p)
  case arrayTarget =>
    refine Nat.le_add_left_of_le ?_
    delta expression
    dsimp only
    simpa +decide using tally_arrayElements_le hqs p
  case objectTarget =>
    refine Nat.le_add_left_of_le ?_
    delta expression
    dsimp only
    simpa +decide using tally_commas_le hqs p.later
  case objectPattern =>
    refine Nat.le_add_left_of_le ?_
    cases qs with
    | nil => exact Nat.zero_le _
    | cons q qs =>
      delta expression
      dsimp only
      simpa +decide using tally_commas_le hqs p.later
  case template ts =>
    delta expression
    dsimp only
    have hlength := of_decide_eq_true (p := ts.length ≤ (qs.map Piece.kind).length + 1) hk
    rw [List.length_map] at hlength
    simpa +decide [Kind.load, Kind.spellings] using tally_template_le hqs hlength p
  case call link pure =>
    rcases qs with _ | ⟨a, _ | ⟨b, qs⟩⟩
    case cons.cons =>
      simp only [List.forall_mem_cons] at hqs
      exact Nat.le_add_left_of_le (Nat.le_trans (tally_call_le link pure hqs.1 hqs.2.1 hqs.2.2
        (hqs.2.1.clear hk) p) (Nat.le_of_eq (Nat.add_assoc _ _ _)))
    all_goals exact Nat.zero_le _
  case new pure =>
    rcases qs with _ | ⟨a, _ | ⟨b, qs⟩⟩
    case cons.cons =>
      simp only [List.forall_mem_cons] at hqs
      exact Nat.le_add_left_of_le (Nat.le_trans (tally_new_le pure hqs.1 hqs.2.1 hqs.2.2
        (hqs.2.1.clear hk) p) (Nat.le_of_eq (Nat.add_assoc _ _ _)))
    all_goals exact Nat.zero_le _
  -- One part.
  case unary | update | member | privateMember | spread | thisParam | await | yield | nonNull
      | rest =>
    rcases qs with _ | ⟨a, _ | ⟨_, _⟩⟩
    case cons.nil =>
      have ha := hqs a List.mem_cons_self
      delta expression
      dsimp only
      simp +decide [Kind.load, Kind.spellings]
      grind [Piece.Good.tally_le, tally_unary_le, tally_update_le, tally_member_le,
        tally_privateMember_le]
    all_goals exact Nat.zero_le _
  -- Two parts.
  case importCall phase =>
    rcases qs with _ | ⟨a, _ | ⟨b, _ | ⟨_, _⟩⟩⟩
    case cons.cons.nil =>
      obtain ⟨ha, hb⟩ := hparts
      delta expression
      cases phase <;> simp +decide [Kind.load, Kind.spellings] <;> grind [Piece.Good.tally_le]
    all_goals exact Nat.zero_le _
  case ascription satisfies =>
    rcases qs with _ | ⟨a, _ | ⟨b, _ | ⟨_, _⟩⟩⟩
    case cons.cons.nil =>
      obtain ⟨ha, hb⟩ := hparts
      delta expression
      cases satisfies <;> simp +decide <;> grind [Piece.Good.tally_le]
    all_goals exact Nat.zero_le _
  case binary op =>
    rcases qs with _ | ⟨a, _ | ⟨b, _ | ⟨_, _⟩⟩⟩
    case cons.cons.nil =>
      obtain ⟨ha, hb⟩ := hparts
      refine Nat.le_add_left_of_le ?_
      delta expression
      dsimp only
      split
      · exact tally_privateIn_le ha hb p
      · exact tally_binary_le op ha hb p
    all_goals exact Nat.zero_le _
  case instantiation =>
    rcases qs with _ | ⟨a, _ | ⟨b, _ | ⟨_, _⟩⟩⟩
    case cons.cons.nil =>
      obtain ⟨ha, hb⟩ := hparts
      have hclear := hb.clear hk
      delta expression
      dsimp only
      simp +decide [hclear]
      grind [Piece.Good.tally_le]
    all_goals exact Nat.zero_le _
  case property | restParam | assign | index | patternProperty | defaultPattern | defaultTarget
      | targetShorthand | targetProperty =>
    rcases qs with _ | ⟨a, _ | ⟨b, _ | ⟨_, _⟩⟩⟩
    case cons.cons.nil =>
      obtain ⟨ha, hb⟩ := hparts
      delta expression
      dsimp only
      simp +decide [Kind.load, Kind.spellings]
      grind [Piece.Good.tally_le, tally_property_le, tally_assign_le, tally_index_le,
        tally_patternProperty_le, tally_key_le]
    all_goals exact Nat.zero_le _
  -- Three parts and more.
  case taggedTemplate =>
    rcases qs with _ | ⟨a, _ | ⟨b, _ | ⟨c, _ | ⟨_, _⟩⟩⟩⟩
    case cons.cons.cons.nil =>
      obtain ⟨ha, hb, hc⟩ := hparts
      have hk := Bool.and_eq_true_iff.1 hk
      have hb' := hb.clear hk.1
      have hc' := hc.clear hk.2
      delta expression
      dsimp only
      simp +decide [hb', hc']
      grind [Piece.Good.tally_le]
    all_goals exact Nat.zero_le _
  case conditional =>
    rcases qs with _ | ⟨a, _ | ⟨b, _ | ⟨c, _ | ⟨_, _⟩⟩⟩⟩
    case cons.cons.cons.nil =>
      obtain ⟨ha, hb, hc⟩ := hparts
      have h := tally_conditional_le ha hb hc p
      simp only [loads_cons, loads_nil]
      exact Nat.le_trans h (by omega)
    all_goals exact Nat.zero_le _
  case arrow form =>
    rcases qs with _ | ⟨a, _ | ⟨b, _ | ⟨c, _ | ⟨d, _ | ⟨_, _⟩⟩⟩⟩⟩
    case cons.cons.cons.cons.nil =>
      obtain ⟨ha, hb, hc, hd⟩ := hparts
      have h := tally_arrow_le form ha hb hc hd p
      simp only [loads_cons, loads_nil]
      exact Nat.le_trans h (by omega)
    all_goals exact Nat.zero_le _
  case param mods optional =>
    rcases qs with _ | ⟨a, _ | ⟨b, _ | ⟨c, _ | ⟨d, _ | ⟨_, _⟩⟩⟩⟩⟩
    case cons.cons.cons.cons.nil =>
      obtain ⟨ha, hb, hc, hd⟩ := hparts
      have h := tally_param_le mods optional ha hb hc hd (ha.closed hk) p
      simp only [loads_cons, loads_nil]
      exact Nat.le_trans h (by omega)
    all_goals exact Nat.zero_le _
  case function form =>
    rcases qs with _ | ⟨a, _ | ⟨b, _ | ⟨c, _ | ⟨d, _ | ⟨e, _ | ⟨_, _⟩⟩⟩⟩⟩⟩
    case cons.cons.cons.cons.cons.nil =>
      obtain ⟨ha, hb, hc, hd, he⟩ := hparts
      have h := tally_function_le form ha hb hc hd he (hb.clear hk) p
      simp only [loads_cons, loads_nil]
      exact Nat.le_trans h (by omega)
    all_goals exact Nat.zero_le _
  case «class» form =>
    rcases qs with _ | ⟨a, _ | ⟨b, _ | ⟨c, _ | ⟨d, _ | ⟨e, _ | ⟨f, _ | ⟨g, _ | ⟨_, _⟩⟩⟩⟩⟩⟩⟩⟩
    case cons.cons.cons.cons.cons.cons.cons.nil =>
      obtain ⟨ha, hb, hc, hd, he, hf, hg⟩ := hparts
      have hk := Bool.and_eq_true_iff.1 hk
      have h := tally_class_le form ha hb hc hd he hf hg (hc.clear hk.1) (he.clear hk.2) p
      simp only [loads_cons, loads_nil]
      exact Nat.le_trans h (by omega)
    all_goals exact Nat.zero_le _
  all_goals exact Nat.zero_le _

end Unhook.Printer
