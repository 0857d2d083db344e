import Unhook.Proofs.Printed

/-!
# What statements are written with first

A statement that is no export is not written with `export let` at its beginning: it
begins with a keyword, with a symbol, or with a name, and what follows a name does not
make it longer.

* `Text.Bare`: a text that does not begin with `export let`, whatever follows it;
* `Node.opensWell`: the statements and expressions that begin as they should;
* `Node.bare_piece`: what they are written with first.
-/

namespace Unhook

namespace Text

variable {t u : Text} {c : Char}

/-- What an exported variable is written with first. -/
def exportLet : Text := "export let "

/-- Whether a text may follow a name: it does not make it a longer beginning of
    `export let`. -/
def follows : Text → Bool
  | ' ' :: c :: _ => c ≠ 'l'
  | c :: _ => !"export".toList.contains c
  | [] => true

/-- A text does not begin with `export let`, whatever follows it. -/
def Bare (t : Text) : Prop := ∀ r, follows r = true → ¬ exportLet <+: t ++ r

theorem Bare.not_begins (ht : Bare t) : ¬ exportLet <+: t := by
  have h := ht [] rfl
  rwa [List.append_nil] at h

/-- A text begins with another character than `export let`. -/
def Marked (t : Text) : Prop := ∃ c, t.head? = some c ∧ c ≠ 'e'

theorem Marked.append (ht : Marked t) (u : Text) : Marked (t ++ u) := by
  obtain ⟨c, hc, hne⟩ := ht
  exact ⟨c, by rw [List.head?_append, hc]; rfl, hne⟩

theorem Marked.bare (ht : Marked t) : Bare t := by
  obtain ⟨c, hc, hne⟩ := ht
  obtain ⟨u, rfl⟩ : ∃ u, t = c :: u := by
    cases t with
    | nil => cases hc
    | cons d t => exact ⟨t, by simpa using hc⟩
  intro r _ hprefix
  exact hne (List.cons_prefix_cons.1 hprefix).1.symm

theorem bare_nil : Bare [] := by
  intro r hr hprefix
  obtain ⟨s, rfl⟩ := hprefix
  cases hr

/-- Neither a name nor what may follow it has a blank within `export let`. -/
theorem not_begins_name {w n r : Text} (hw : ∀ c ∈ w, "export".toList.contains c = true)
    (hn : ' ' ∉ n) (hr : follows r = true) : ¬ w ++ " let ".toList <+: n ++ r := by
  induction w generalizing n with
  | nil =>
    intro hprefix
    cases n with
    | nil =>
      obtain ⟨s, rfl⟩ := hprefix
      cases hr
    | cons d n =>
      obtain ⟨rfl, -⟩ := List.cons_prefix_cons.1 hprefix
      exact hn List.mem_cons_self
  | cons c w ih =>
    rw [List.forall_mem_cons] at hw
    intro hprefix
    cases n with
    | nil =>
      obtain ⟨s, rfl⟩ := hprefix
      have hc : c ≠ ' ' := by
        rintro rfl
        exact absurd hw.1 (by decide)
      rw [List.cons_append, List.cons_append, follows, hw.1] at hr
      · cases hr
      · exact fun _ _ h => absurd h hc
    | cons d n =>
      exact ih hw.2 (fun h => hn (List.mem_cons_of_mem _ h)) (List.cons_prefix_cons.1 hprefix).2

/-- A name without blanks is bare. -/
theorem bare_name {n : Text} (hn : n.contains ' ' = false) : Bare n := by
  intro r hr
  have hletters : ∀ c ∈ "export".toList, "export".toList.contains c = true := by
    simp
  exact not_begins_name hletters (by simpa using hn) hr

theorem Bare.append (ht : Bare t)
    (hu : ∀ r, follows r = true → follows (u ++ r) = true) : Bare (t ++ u) := by
  intro r hr
  rw [List.append_assoc]
  exact ht _ (hu r hr)

/-- What begins with a character that is neither a blank nor a letter of `export` may
    follow a name. -/
theorem follows_char (hc : "export ".toList.contains c = false) (t : Text) :
    follows (c :: t) = true := by
  have hblank : c ≠ ' ' := by
    rintro rfl
    exact absurd hc (by decide)
  have hletter : "export".toList.contains c = false := by
    simp only [List.contains_eq_mem, decide_eq_false_iff_not] at hc ⊢
    exact fun h => hc (List.mem_append_left [' '] h)
  rw [follows, hletter]
  · rfl
  · exact fun _ _ h => absurd h hblank

theorem Bare.char (ht : Bare t) (hc : "export ".toList.contains c = false) : Bare (t ++ c :: u) :=
  ht.append fun r _ => follows_char hc (u ++ r)

theorem Bare.blank (ht : Bare t) (hc : c ≠ 'l') : Bare (t ++ ' ' :: c :: u) :=
  ht.append fun r _ => by simpa [follows] using hc

theorem bare_export (ht : t.head? = some c) (hc : c ≠ 'l') : Bare ("export ".toList ++ t) := by
  intro r _ hprefix
  rw [List.append_assoc] at hprefix
  have hrest : "let ".toList <+: t ++ r :=
    (List.prefix_append_right_inj "export ".toList).1 hprefix
  cases t with
  | nil => cases ht
  | cons d t =>
    obtain rfl : d = c := by simpa using ht
    exact hc (List.cons_prefix_cons.1 hrest).1.symm

theorem Bare.line (ht : Bare t) (b : Bool) : Bare (t ++ Printer.given b "\n".toList) := by
  refine ht.append fun r hr => ?_
  cases b
  · exact hr
  · exact follows_char (by decide) r

theorem bare_wrap {needed : Bool} {p : Printer.Place} {f : Printer.Place → Text}
    (hf : ∀ p, Bare (f p)) : Bare (Printer.wrap needed p f) := by
  unfold Printer.wrap
  split
  · exact Marked.bare ⟨_, rfl, by decide⟩
  · exact hf p

theorem begins_trimEnd (t : Text) : trimEnd t <+: t := by
  have h := List.reverse_prefix.2 (List.dropWhile_suffix (p := isWhiteSpace) (l := t.reverse))
  rwa [List.reverse_reverse] at h

end Text

open Printer Text

/-- Whether nodes of a kind are written with a keyword or a symbol first, whatever
    their parts are. -/
def Kind.isMarked : Kind → Bool
  | .privateName _ | .this | .superRef | .null | .boolean _ | .string _ _ | .regex _ _
  | .template _ | .importMeta | .newTarget | .array | .object | .function _ | .unary _
  | .update _ true | .new _ | .importCall _ | .await | .yield _ | .fragment | .arrayTarget
  | .objectTarget | .block | .empty | .declaration _ _ | .ifStatement | .forStatement | .forIn
  | .forOf _ | .whileStatement | .doWhile | .switch | .returnStatement | .throwStatement
  | .breakStatement _ | .continueStatement _ | .tryStatement | .debugger | .withStatement
  | .directive _ | .importDeclaration _ _ _ | .exportList _ _ _ | .exportAll _ _ _
  | .exportDefault | .typeAlias _ _ | .interface _ | .importEquals _ | .exportAssignment
  | .exportNamespace _ => true
  | _ => false

namespace Printer

theorem marked_variablesText (kind : VarKind) (declare : Bool) (ds : List Piece) (p : Place) :
    Marked (variablesText kind declare ds p) := by
  cases declare
  · cases kind <;> exact ⟨_, rfl, by decide⟩
  · exact ⟨_, rfl, by decide⟩

theorem marked_directiveQuote (escaped : Bool) (raw : Text) :
    Marked (directiveQuote escaped raw) := by
  fun_induction directiveQuote escaped raw with
  | case1 => exact ⟨_, rfl, by decide⟩
  | case2 _ _ ih => exact ih
  | case3 => exact ⟨_, rfl, by decide⟩
  | case4 => exact ⟨_, rfl, by decide⟩
  | case5 _ _ _ _ ih => exact ih

/-- The words of an export come first, but for the note about a function. -/
theorem exported_cases (w : Text) (q : Piece) (p : Place) :
    exported w q p = w ++ q.text { p.later with opening := .exported } ∨ Marked (exported w q p) := by
  have hnote (inert : Bool) (u : Text) : given inert (inertNote ++ "\n".toList ++ tabs p.indent) ++
      u = u ∨ Marked (given inert (inertNote ++ "\n".toList ++ tabs p.indent) ++ u) := by
    cases inert
    · exact .inl rfl
    · exact .inr ⟨_, rfl, by decide⟩
  unfold exported
  dsimp only
  rw [List.append_assoc]
  exact hnote _ _

theorem bare_exportDefault (q : Piece) (p : Place) : Bare (exportDefault q p) := by
  have hdefault (t : Text) : Bare ("export default ".toList ++ t) :=
    bare_export (t := "default ".toList ++ t) rfl (by decide)
  unfold exportDefault
  extract_lets declaration
  split
  · rcases exported_cases "export default ".toList q p with h | h
    · exact h ▸ hdefault _
    · exact h.bare
  · rw [List.append_assoc]
    exact hdefault _

theorem marked_array (qs : List Piece) (p : Place) : Marked (array qs p) := by
  unfold array
  dsimp only
  split <;> exact ⟨_, rfl, by decide⟩

theorem bare_object (qs : List Piece) (p : Place) : Bare (object qs p) := by
  refine bare_wrap fun p => ?_
  split <;> exact Marked.bare ⟨_, rfl, by decide⟩

theorem bare_function (form : FunctionForm) (id ts ps r body : Piece) (p : Place) :
    Bare (function form id ts ps r body p) := by
  have hword (u : Text) : Marked (given form.declare "declare ".toList ++
      (given form.async "async ".toList ++ ("function".toList ++ u))) := by
    cases form.declare
    · cases form.async <;> exact ⟨_, rfl, by decide⟩
    · exact ⟨_, rfl, by decide⟩
  have hnote (u : Text) (hu : Bare u) (p : Place) : Bare ((if !form.inert then []
      else if !form.declaration then inertNote ++ " ".toList
      else given (p.opening ≠ .exported) (inertNote ++ "\n".toList ++ tabs p.indent)) ++ u) := by
    split
    · exact hu
    · split
      · exact Marked.bare ⟨_, rfl, by decide⟩
      · cases decide (p.opening ≠ .exported)
        · exact hu
        · exact Marked.bare ⟨_, rfl, by decide⟩
  refine hnote _ (bare_wrap fun p => ?_) p
  simp only [List.append_assoc]
  exact (hword _).bare

theorem bare_unary (op : UnaryOp) (e : Piece) (p : Place) : Bare (unary op e p) := by
  refine bare_wrap fun p => ?_
  have hsymbol : Marked op.symbol := by
    cases op <;> exact ⟨_, rfl, by decide⟩
  dsimp only
  split
  · exact Marked.bare ⟨_, rfl, by decide⟩
  · split
    · exact ((hsymbol.append _).append _).bare
    · exact (hsymbol.append _).bare

theorem bare_update (increment : Bool) (e : Piece) (p : Place) :
    Bare (update increment true e p) := by
  rw [update, if_pos rfl]
  refine bare_wrap fun p => ?_
  cases increment <;> exact Marked.bare ⟨_, rfl, by decide⟩

theorem bare_new (pure : Bool) (f ts : Piece) (args : List Piece) (p : Place) :
    Bare (new pure f ts args p) := by
  refine bare_wrap fun p => ?_
  cases pure <;> exact Marked.bare ⟨_, rfl, by decide⟩

theorem bare_doWhile (b t : Piece) (p : Place) : Bare (doWhile b t p) := by
  unfold doWhile
  dsimp only
  split <;> exact Marked.bare ⟨_, rfl, by decide⟩

theorem bare_exportList (typeOnly : Bool) (entries : List Text) (t u : Text) :
    Bare ("export ".toList ++ given typeOnly "type ".toList ++ entryList entries ++ t ++ u) := by
  have hentries : (entryList entries).head? = some '\x7b' := by
    unfold entryList
    split <;> rfl
  simp only [List.append_assoc]
  cases typeOnly
  · refine bare_export (c := '\x7b') ?_ (by decide)
    rw [given, if_neg (by simp), List.nil_append, List.head?_append, hentries]
    rfl
  · exact bare_export rfl (by decide)

theorem bare_exportAll (typeOnly : Bool) (t u v w : Text) :
    Bare ("export ".toList ++ given typeOnly "type ".toList ++ "*".toList ++ t ++ u ++ v ++ w) := by
  simp only [List.append_assoc]
  cases typeOnly <;> exact bare_export rfl (by decide)

/-- What is written with a keyword or a symbol first is not written with `export let`
    first. -/
theorem bare_layout {k : Kind} (hk : k.isMarked = true) (qs : List Piece) (p : Place) :
    Bare (layout k qs p) := by
  cases k
  case boolean b => cases b <;> exact Marked.bare ⟨_, rfl, by decide⟩
  case array => exact ((marked_array qs p).append _).bare
  case object => exact (bare_object qs p).line _
  case directive raw =>
    exact ((((marked_directiveQuote false raw).append _).append _).append _).bare
  case declaration kind declare => exact ((marked_variablesText kind declare qs _).append _).bare
  case exportList typeOnly entries source => exact bare_exportList typeOnly _ _ _
  case exportAll typeOnly name source => exact bare_exportAll typeOnly _ _ _ _
  case exportNamespace name => exact bare_export (t := "as namespace ".toList ++ name ++ _) rfl (by decide)
  -- The other rules need their parts.
  case function form =>
    rcases qs with _ | ⟨a, _ | ⟨b, _ | ⟨c, _ | ⟨d, _ | ⟨e, _ | ⟨f, qs⟩⟩⟩⟩⟩⟩
    case cons.cons.cons.cons.cons.nil => exact (bare_function form a b c d e p).line _
    all_goals exact bare_nil.line _
  case unary op =>
    rcases qs with _ | ⟨a, _ | ⟨b, qs⟩⟩
    case cons.nil => exact (bare_unary op a p).line _
    all_goals exact bare_nil.line _
  case update increment before =>
    cases before
    · cases hk
    · rcases qs with _ | ⟨a, _ | ⟨b, qs⟩⟩
      case cons.nil => exact (bare_update increment a p).line _
      all_goals exact bare_nil.line _
  case new pure =>
    rcases qs with _ | ⟨a, _ | ⟨b, qs⟩⟩
    case cons.cons => exact (bare_new pure a b qs p).line _
    all_goals exact bare_nil.line _
  case importCall phase =>
    rcases qs with _ | ⟨a, _ | ⟨b, _ | ⟨c, qs⟩⟩⟩
    case cons.cons.nil =>
      have hcall : Bare (wrap (Level.new ≤ p.level || p.noCall) p fun p =>
          "import" ++ given phase.isSome ("." ++ phase.getD []) ++ "(" ++
            a.text (p.fresh Level.comma) ++ b.ifPresent ", " (p.fresh Level.comma) ++ ")") :=
        bare_wrap fun p => Marked.bare ⟨_, rfl, by decide⟩
      exact hcall.line _
    all_goals exact bare_nil.line _
  case await =>
    rcases qs with _ | ⟨a, _ | ⟨b, qs⟩⟩
    case cons.nil =>
      have hawait : Bare (wrap (Level.unary ≤ p.level) p fun p =>
          "await " ++ a.text (p.later Level.power)) :=
        bare_wrap fun p => Marked.bare ⟨_, rfl, by decide⟩
      exact hawait.line _
    all_goals exact bare_nil.line _
  case yield delegate =>
    rcases qs with _ | ⟨a, _ | ⟨b, qs⟩⟩
    case cons.nil =>
      have hyield : Bare (wrap (Level.assign ≤ p.level) p fun p =>
          "yield" ++ given delegate "*" ++ a.ifPresent " " (p.later Level.yield)) :=
        bare_wrap fun p => Marked.bare ⟨_, rfl, by decide⟩
      exact hyield.line _
    all_goals exact bare_nil.line _
  case doWhile =>
    rcases qs with _ | ⟨a, _ | ⟨b, _ | ⟨c, qs⟩⟩⟩
    case cons.cons.nil => exact bare_doWhile a b p
    all_goals exact bare_nil
  case exportDefault =>
    rcases qs with _ | ⟨a, _ | ⟨b, qs⟩⟩
    case cons.nil => exact bare_exportDefault a p
    all_goals exact bare_nil
  case exportAssignment =>
    rcases qs with _ | ⟨a, _ | ⟨b, qs⟩⟩
    case cons.nil => exact bare_export (t := "= ".toList ++ a.text p.fresh ++ _) rfl (by decide)
    all_goals exact bare_nil
  case typeAlias declare name =>
    rcases qs with _ | ⟨a, _ | ⟨b, _ | ⟨c, qs⟩⟩⟩
    case cons.cons.nil => cases declare <;> exact Marked.bare ⟨_, rfl, by decide⟩
    all_goals exact bare_nil
  all_goals first
    | (cases hk; done)
    | exact Marked.bare ⟨_, rfl, by decide⟩
    | rcases qs with _ | ⟨a, _ | ⟨b, _ | ⟨c, _ | ⟨d, _ | ⟨e, qs⟩⟩⟩⟩⟩ <;> first
      | exact bare_nil
      | exact Marked.bare ⟨_, rfl, by decide⟩

/-! ### What begins with a part -/

variable {o q : Piece}

theorem bare_member (ho : ∀ p, Bare (o.text p)) (link : Link) (name : Text) (p : Place) :
    Bare (member link name o p) := by
  refine bare_wrap fun p => ?_
  dsimp only
  rw [List.append_assoc]
  split
  · exact (ho _).char (by decide)
  · split
    · exact (ho _).blank (by decide)
    · exact (ho _).char (by decide)

theorem bare_privateMember (ho : ∀ p, Bare (o.text p)) (link : Link) (name : Text) (p : Place) :
    Bare (privateMember link name o p) := by
  refine bare_wrap fun p => ?_
  rw [List.append_assoc]
  split <;> exact (ho _).char (by decide)

theorem bare_index (ho : ∀ p, Bare (o.text p)) (link : Link) (p : Place) :
    Bare (index link o q p) := by
  refine bare_wrap fun p => ?_
  simp only [List.append_assoc]
  cases link.optional <;> exact (bare_wrap ho).char (by decide)

theorem bare_update_after (ho : ∀ p, Bare (o.text p)) (increment : Bool) (p : Place) :
    Bare (update increment false o p) := by
  rw [update, if_neg (by simp)]
  refine bare_wrap fun p => ?_
  cases increment <;> exact (ho _).char (by decide)

theorem marked_symbol (op : BinaryOp) : ∃ c t, op.symbol = c :: t ∧ c ≠ 'l' := by
  cases op <;> exact ⟨_, _, rfl, by decide⟩

theorem bare_binary (ho : ∀ p, Bare (o.text p)) (op : BinaryOp) (p : Place) :
    Bare (binary op o q p) := by
  unfold binary
  refine bare_wrap fun p => ?_
  obtain ⟨c, t, hop, hc⟩ := marked_symbol op
  dsimp only
  simp only [List.append_assoc, hop]
  exact (ho _).blank hc

theorem bare_privateIn (ho : ∀ p, Bare (o.text p)) (p : Place) : Bare (privateIn o q p) := by
  refine bare_wrap fun p => ?_
  rw [List.append_assoc]
  exact (ho _).blank (by decide)

theorem bare_operator (ho : ∀ p, Bare (o.text p)) (op : BinaryOp) (p : Place) :
    Bare (expression (.binary op) [o, q] p) := by
  unfold expression
  dsimp only
  split
  · exact bare_privateIn ho p
  · exact bare_binary ho op p

theorem bare_assign (ho : ∀ p, Bare (o.text p)) (op : Option BinaryOp) (p : Place) :
    Bare (assign op o q p) := by
  refine bare_wrap fun p => ?_
  have hop : ∃ c t, assignSymbol op = c :: t ∧ c ≠ 'l' := by
    cases op with
    | none => exact ⟨_, _, rfl, by decide⟩
    | some op => cases op <;> exact ⟨_, _, rfl, by decide⟩
  obtain ⟨c, t, hop, hc⟩ := hop
  simp only [List.append_assoc, hop]
  exact (ho _).blank hc

theorem bare_conditional {a b : Piece} (ho : ∀ p, Bare (o.text p)) (p : Place) :
    Bare (conditional o a b p) := by
  refine bare_wrap fun p => ?_
  simp only [List.append_assoc]
  exact (ho _).blank (by decide)

theorem bare_sequence {qs : List Piece} (ho : ∀ p, Bare (o.text p)) (p : Place) :
    Bare (sequence (o :: qs) p) := by
  refine bare_wrap fun p => ?_
  cases qs with
  | nil => exact ho _
  | cons q qs =>
    show Bare (join ", ".toList (o.text p.first :: q.text p.later :: qs.map (·.text p.later)))
    rw [join, List.append_assoc]
    · exact (ho _).char (by decide)
    · exact fun h => by cases h

/-- What stands right after a name does not make it longer. -/
def Closed (q : Piece) : Prop := ∀ p r, follows r = true → follows (q.text p ++ r) = true

theorem bare_call {ts : Piece} {args : List Piece} (ho : ∀ p, Bare (o.text p)) (hts : Closed ts)
    (link : Link) (pure : Bool) (p : Place) : Bare (call link pure o ts args p) := by
  refine bare_wrap fun p => ?_
  dsimp only
  refine bare_wrap fun q => ?_
  simp only [List.append_assoc]
  cases pure
  · cases link.optional
    · refine (ho _).append fun r _ => ?_
      rw [given, if_neg (by simp), List.nil_append, List.append_assoc]
      exact hts _ _ (follows_char (by decide) _)
    · exact (ho _).char (by decide)
  · exact Marked.bare ⟨_, rfl, by decide⟩

theorem bare_arrow {ts ps r b : Piece} {form : ArrowForm}
    (hts : ∀ p u, Marked (ts.text p ++ ("(".toList ++ u))) (p : Place) :
    Bare (arrow form ts ps r b p) := by
  refine bare_wrap fun p => ?_
  simp only [List.append_assoc]
  cases form.inert
  · cases form.async
    · exact (hts _ _).bare
    · exact Marked.bare ⟨_, rfl, by decide⟩
  · exact Marked.bare ⟨_, rfl, by decide⟩

theorem bare_class {ds id ts base args ifaces b : Piece} {form : ClassForm}
    (hds : ∀ p u, Marked u → Marked (ds.text p ++ u)) (p : Place) :
    Bare (class_ form ds id ts base args ifaces b p) := by
  refine bare_wrap fun p => ?_
  simp only [List.append_assoc]
  refine (hds _ _ ?_).bare
  cases form.declare
  · cases form.abstract <;> exact ⟨_, rfl, by decide⟩
  · exact ⟨_, rfl, by decide⟩

theorem bare_element {qs : List Piece} (ho : ∀ p, Marked (o.text p)) (p : Place) :
    Bare (markup .element (o :: qs) p) := by
  unfold markup
  dsimp only
  split
  · split
    · exact ((ho _).append _).bare
    · simp only [List.append_assoc]
      exact ((ho _).append _).bare
  · exact (ho _).bare

theorem bare_words {mods : List Text} {t : Text}
    (hmods : mods.all (Text.oneOf · ["declare", "const"]) = true) (ht : Bare t) :
    Bare (words mods ++ t) := by
  cases mods with
  | nil => exact ht
  | cons m mods =>
    rw [List.all_cons, Bool.and_eq_true] at hmods
    have hm : "declare".toList = m ∨ "const".toList = m := by
      simpa only [Text.oneOf, List.any_cons, List.any_nil, Bool.or_false, Bool.or_eq_true,
        decide_eq_true_eq] using hmods.1
    rcases hm with rfl | rfl <;> exact Marked.bare ⟨_, rfl, by decide⟩

theorem bare_namespace {mods : List Text} {w : Text} {n b : Piece}
    (hmods : mods.all (Text.oneOf · ["declare", "const"]) = true)
    (hw : w.oneOf ["namespace", "module", "global"] = true) (p : Place) :
    Bare (type (.namespace_ mods w) [n, b] p) := by
  have hw : "namespace".toList = w ∨ "module".toList = w ∨ "global".toList = w := by
    simpa only [Text.oneOf, List.any_cons, List.any_nil, Bool.or_false, Bool.or_eq_true,
      decide_eq_true_eq] using hw
  have hwritten (t u : Text) : Bare (words mods ++ w ++ t ++ u ++ "\n".toList) := by
    simp only [List.append_assoc]
    refine bare_words hmods ?_
    rcases hw with rfl | rfl | rfl <;> exact Marked.bare ⟨_, rfl, by decide⟩
  exact hwritten _ _

end Printer

namespace Node

variable {n : Node}

/-- Whether a part is missing, or is the type arguments that stand after a name. -/
def isTypeArguments (n : Node) : Bool := n.isAbsent || n.kind = .typeArguments

/-- Whether a statement or an expression begins as it should: names have no blanks, and
    what stands right after a name are type arguments or a template. -/
def opensWell : Node → Bool
  | mk (.identifier n) _ _ | mk (.target n) _ _ | mk (.labeled n) _ [_] => !n.contains ' '
  | mk (.number v) _ _ => !v.written.contains ' '
  | mk (.bigint d) _ _ => !d.contains ' '
  | mk .expressionStatement _ [e] | mk (.member _ _) _ [e] | mk (.privateMember _ _) _ [e]
  | mk (.nonNull _) _ [e] | mk (.update _ false) _ [e] | mk (.index _) _ [e, _]
  | mk (.binary _) _ [e, _] | mk (.assign _) _ [e, _] | mk (.ascription _) _ [e, _]
  | mk .conditional _ [e, _, _] | mk .sequence _ (e :: _) => e.opensWell
  | mk (.call _ _) _ (e :: ts :: _) | mk .instantiation _ [e, ts]
  | mk .taggedTemplate _ [e, ts, mk (.template _) _ _] => e.opensWell && ts.isTypeArguments
  | mk (.arrow _) _ (ts :: _) => ts.isAbsent || ts.kind = .typeParameters
  | mk (.class _) _ (ds :: _) => ds.isAbsent || ds.kind = .decorators
  | mk .element _ (mk .opening _ (_ :: _ :: _) :: _) => true
  | mk (.enum mods _) _ _ => mods.all (Text.oneOf · ["declare", "const"])
  | mk (.namespace_ mods w) _ _ =>
    mods.all (Text.oneOf · ["declare", "const"]) && w.oneOf ["namespace", "module", "global"]
  | mk k _ _ => k.isMarked

theorem piece_text_absent (h : n.isAbsent = true) (p : Place) : n.piece.text p = [] := by
  obtain ⟨k, s, ps⟩ := n
  obtain rfl : k = .absent := of_decide_eq_true h
  rfl

theorem closed_piece (h : n.isTypeArguments = true) : Closed n.piece := by
  intro p r hr
  rw [isTypeArguments, Bool.or_eq_true, decide_eq_true_eq] at h
  rcases h with habsent | hkind
  · rwa [piece_text_absent habsent, List.nil_append]
  · obtain ⟨k, s, ps⟩ := n
    obtain rfl : k = .typeArguments := hkind
    exact follows_char (c := '<') (by decide) _

theorem marked_typeParameters
    (h : (n.isAbsent || decide (n.kind = .typeParameters)) = true) (p : Place) (u : Text) :
    Marked (n.piece.text p ++ ("(".toList ++ u)) := by
  rw [Bool.or_eq_true, decide_eq_true_eq] at h
  rcases h with habsent | hkind
  · rw [piece_text_absent habsent]
    exact ⟨_, rfl, by decide⟩
  · obtain ⟨k, s, ps⟩ := n
    obtain rfl : k = .typeParameters := hkind
    have hopen : Marked (typeParameters (pieces ps) p) := by
      unfold typeParameters
      split <;> exact ⟨_, rfl, by decide⟩
    exact hopen.append _

theorem marked_decorators
    (h : (n.isAbsent || decide (n.kind = .decorators)) = true) (p : Place) (u : Text)
    (hu : Marked u) : Marked (n.piece.text p ++ u) := by
  rw [Bool.or_eq_true, decide_eq_true_eq] at h
  rcases h with habsent | hkind
  · rwa [piece_text_absent habsent]
  · obtain ⟨k, s, ps⟩ := n
    obtain rfl : k = .decorators := hkind
    cases ps with
    | nil => exact hu
    | cons d ps => exact ⟨_, rfl, by decide⟩

/-- A statement or an expression that begins as it should is not written with
    `export let` first. The induction goes along what is written first. -/
theorem bare_piece (h : n.opensWell = true) (p : Place) : Bare (n.piece.text p) := by
  fun_induction opensWell n generalizing p with
  | case1 n s ps => exact (bare_name (n := n) (by simpa using h)).line _
  | case2 n s ps => exact (bare_name (n := n) (by simpa using h)).line _
  | case3 l s b =>
    have hl : Bare l := bare_name (by simpa using h)
    have hlabeled : Bare (l ++ ":".toList ++ Printer.body b.piece p) := by
      rw [List.append_assoc]
      exact hl.char (by decide)
    exact hlabeled
  | case4 v s ps => exact (bare_name (n := v.written) (by simpa using h)).line _
  | case5 d s ps =>
    have hd : Bare d := bare_name (by simpa using h)
    exact (hd.char (c := 'n') (by decide)).line _
  | case6 s e ih => exact (ih h _).char (by decide)
  | case7 link name s e ih => exact (bare_member (ih h) link name p).line _
  | case8 link name s e ih => exact (bare_privateMember (ih h) link name p).line _
  | case9 ends s e ih =>
    have hmark : Bare (wrap (ends && Level.update ≤ p.level) p fun p =>
        e.piece.text p ++ "!".toList) :=
      bare_wrap fun p => (ih h p).char (by decide)
    exact hmark.line _
  | case10 increment s e ih => exact (bare_update_after (ih h) increment p).line _
  | case11 link s e i ih => exact (bare_index (ih h) link p).line _
  | case12 op s l r ih => exact (bare_operator (ih h) op p).line _
  | case13 op s l r ih => exact (bare_assign (ih h) op p).line _
  | case14 satisfies s e t ih =>
    have hascription : Bare (wrap (Level.compare ≤ p.level) p fun p =>
        e.piece.text (p.first Level.power) ++
          (if satisfies then " satisfies " else " as ") ++ t.piece.text p.later) := by
      refine bare_wrap fun p => ?_
      rw [List.append_assoc]
      cases satisfies <;> exact (ih h _).blank (by decide)
    exact hascription.line _
  | case15 s t a b ih => exact (bare_conditional (ih h) p).line _
  | case16 s e es ih => exact (bare_sequence (ih h) p).line _
  | case17 link pure s e ts args ih =>
    rw [Bool.and_eq_true] at h
    exact (bare_call (ih h.1) (closed_piece h.2) link pure p).line _
  | case18 s e ts ih =>
    rw [Bool.and_eq_true] at h
    exact ((ih h.1 _).append (closed_piece h.2 _)).line _
  | case19 s e ts texts t ps ih =>
    rw [Bool.and_eq_true] at h
    have htagged : Bare (e.piece.text (p.leading Level.update) ++ ts.piece.text p.later ++
        (mk (.template texts) t ps).piece.text p.later) := by
      rw [List.append_assoc]
      refine (ih h.1 _).append fun r _ => ?_
      rw [List.append_assoc]
      exact closed_piece h.2 _ _ (follows_char (by decide) _)
    exact htagged.line _
  | case20 form s ts ps =>
    rcases ps with _ | ⟨a, _ | ⟨b, _ | ⟨c, _ | ⟨d, ps⟩⟩⟩⟩
    case cons.cons.cons.nil => exact (bare_arrow (marked_typeParameters h) p).line _
    all_goals exact bare_nil.line _
  | case21 form s ds ps =>
    rcases ps with _ | ⟨a, _ | ⟨b, _ | ⟨c, _ | ⟨d, _ | ⟨e, _ | ⟨f, _ | ⟨g, ps⟩⟩⟩⟩⟩⟩⟩
    case cons.cons.cons.cons.cons.cons.nil => exact (bare_class (marked_decorators h) p).line _
    all_goals exact bare_nil.line _
  | case22 => exact bare_element (fun p => ⟨_, rfl, by decide⟩) p
  | case23 mods n s ps =>
    have henum (t : Text) : Bare ("enum ".toList ++ t) := by
      intro r _ hprefix
      have hsecond := (List.cons_prefix_cons.1 hprefix).2
      exact absurd (List.cons_prefix_cons.1 hsecond).1 (by decide)
    have hwritten : Bare (tabs p.indent ++ words mods ++ "enum ".toList ++ n ++ " ".toList ++
        enumMembers (pieces ps) p.later ++ "\n".toList) := by
      simp only [List.append_assoc]
      cases p.indent with
      | zero => exact bare_words h (henum _)
      | succ i => exact Marked.bare ⟨_, rfl, by decide⟩
    exact hwritten
  | case24 mods w s ps =>
    rw [Bool.and_eq_true] at h
    rcases ps with _ | ⟨a, _ | ⟨b, _ | ⟨c, ps⟩⟩⟩
    case cons.cons.nil => exact bare_namespace h.1 h.2 p
    all_goals exact bare_nil
  | case25 k s ps => exact bare_layout h _ p

/-- What a statement of the module declares, without the word `export`. -/
def unexported : Node → Node
  | mk .exportDeclaration _ [d] => d
  | n => n

theorem begins_printStatement (n : Node) :
    n.printStatement <+: ((bodyLines [n.piece]).map fun l => l {}).flatten :=
  Text.begins_trimEnd _

/-- A statement that begins as it should is not written with `export let` first. -/
theorem not_exportLet_printStatement (h : n.opensWell = true) :
    ¬ exportLet <+: n.printStatement := by
  have hlines : Bare ((bodyLines [n.piece]).map fun l => l {}).flatten := by
    unfold bodyLines
    dsimp only
    split
    · exact Marked.bare ⟨_, rfl, by decide⟩
    · have hline : ((line n.piece :: [].map line).map fun l => l {}).flatten =
          n.piece.text ({} : Place).later := List.append_nil _
      rw [hline]
      exact bare_piece h _
  exact fun hlet => hlines.not_begins (hlet.trans (begins_printStatement n))

/-- A declaration without the `export` before it is not written with `export let` first,
    if it begins as it should. -/
theorem not_exportLet_of_export {s : Span} {ps : List Node} {t : Text}
    (h : (mk .exportDeclaration s ps).unexported.opensWell = true)
    (ht : (mk .exportDeclaration s ps).printStatement = "export ".toList ++ t) :
    ¬ exportLet <+: t := by
  rcases ps with _ | ⟨d, _ | ⟨e, ps⟩⟩
  · cases h
  · have hwritten : ((bodyLines [(mk .exportDeclaration s [d]).piece]).map fun l => l {}).flatten =
        exported "export ".toList d.piece ({} : Place).later := List.append_nil _
    have hprefix := begins_printStatement (mk .exportDeclaration s [d])
    rw [ht, hwritten] at hprefix
    rcases exported_cases "export ".toList d.piece ({} : Place).later with heq | hmarked
    · rw [heq] at hprefix
      have ht := (List.prefix_append_right_inj _).1 hprefix
      exact fun hlet => (bare_piece h _).not_begins (hlet.trans ht)
    · obtain ⟨c, hc, hne⟩ := hmarked
      obtain ⟨u, hu⟩ := hprefix
      rw [← hu] at hc
      exact absurd (Option.some.inj hc).symm hne
  · cases h

end Node

end Unhook
