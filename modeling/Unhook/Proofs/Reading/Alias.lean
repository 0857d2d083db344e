import Unhook.Proofs.Reading.Basic
import Unhook.Template

/-!
# Reading an alias

The alias of a prop is written as a text, `$: x = key;`, and read again. Here the
grammar is followed on that text, for all names: what each rule answers at a name
that a sign follows is said in one lemma (`run_…`), from the characters up to the
statement. No word that can be a name makes a difference, also not one that means
something else in another place (`let`, `async`, `type`), but for `await`.

* `Text.isIdentifierName`: texts that are written like names;
* `Parse.WordAt`, `Parse.NameAt`: a name at the cursor and a sign after it;
* `Template.read_alias`: the alias is read as the assignment that it is meant to be.
-/

namespace Unhook

/-! ### Tokens -/

namespace Text

/-- Whether a text is written like a name: its first character can begin one, and all
    can continue one. -/
def isIdentifierName (t : Text) : Bool := t.head?.any isNameStart && t.all isNamePart

/-- No character between tokens begins a name. -/
theorem isNameStart_of_isBlank {c : Char} (h : isBlank c = true) : isNameStart c = false := by
  have hblank : ∀ n ∈ List.range' 0x2000 12 ++ [0x20, 0x09, 0x0B, 0x0C, 0x85, 0xA0, 0x1680, 0x180E,
      0x202F, 0x205F, 0x3000, 0xFEFF], isNameStart (Char.ofNat n) = false := by decide +kernel
  have h20 : ' '.toNat = 0x20 := rfl
  have h09 : '\t'.toNat = 0x09 := rfl
  rw [← Char.ofNat_toNat c]
  refine hblank _ ?_
  simp only [isBlank, Bool.or_eq_true, decide_eq_true_eq, beq_iff_eq, Bool.and_eq_true,
    ← Char.toNat_inj, h20, h09] at h
  simp only [List.mem_append, List.mem_range'_1, List.mem_cons, List.not_mem_nil, or_false]
  omega

/-- No end of a line begins a name. -/
theorem isNameStart_of_isLineEnd {c : Char} (h : isLineEnd c = true) : isNameStart c = false := by
  have hend : ∀ n ∈ [0x0A, 0x0D, 0x2028, 0x2029], isNameStart (Char.ofNat n) = false := by
    decide +kernel
  have h0A : '\n'.toNat = 0x0A := rfl
  have h0D : '\r'.toNat = 0x0D := rfl
  rw [← Char.ofNat_toNat c]
  refine hend _ ?_
  simp only [isLineEnd, Bool.or_eq_true, decide_eq_true_eq, ← Char.toNat_inj] at h
  simp only [List.mem_cons, List.not_mem_nil, or_false]
  omega

end Text

open Text

/-- Whether no name goes on with a text. -/
def Text.EndsName (r : Text) : Prop := ∀ c ∈ r.head?, isNamePart c = false ∧ c ≠ '\\'

namespace Token

variable {x r : Text}

theorem skipGap_name {c : Char} (p : Passed) (t : Text) (h : isNameStart c = true) :
    skipGap .code p (c :: t) = some (p, c :: t) := by
  have hslash : c ≠ '/' := by
    rintro rfl
    exact absurd h (by decide)
  have hend : isLineEnd c = false :=
    Bool.eq_false_iff.2 fun hc => by simp [isNameStart_of_isLineEnd hc] at h
  have hblank : isBlank c = false :=
    Bool.eq_false_iff.2 fun hc => by simp [isNameStart_of_isBlank hc] at h
  rw [skipGap.eq_3]
  · simp only [hend, hblank, Bool.false_eq_true, if_false]
  · exact fun _ h _ => hslash h
  · exact fun _ h _ => hslash h

theorem scanName_append (hx : x.all isNamePart = true) (hr : r.EndsName) :
    scanName 0 (x ++ r) = some (x, x, r) := by
  induction x with
  | nil =>
    cases r with
    | nil => rfl
    | cons c r =>
      obtain ⟨hpart, hslash⟩ := hr c rfl
      unfold scanName
      simp only [List.nil_append, hpart, Bool.false_eq_true, if_false, hslash]
  | cons c x ih =>
    rw [List.all_cons, Bool.and_eq_true] at hx
    unfold scanName
    simp only [List.cons_append, hx.1, if_true, ih hx.2, Option.map_some]

theorem scan_name (hx : x.isIdentifierName = true) (hr : r.EndsName) :
    scan (x ++ r) = (.word x true, x, r) := by
  rw [isIdentifierName, Bool.and_eq_true] at hx
  cases x with
  | nil => cases hx.1
  | cons c x =>
    have hstart : isNameStart c = true := hx.1
    have hname := scanName_append hx.2 hr
    rw [List.cons_append] at hname ⊢
    unfold scan
    simp [hstart, hname]

end Token

namespace Lexeme

variable {offset : Nat} {x r t : Text}

theorem next_of_skipGap {here raw rest : Text} {p : Token.Passed} {token : Token}
    (hgap : Token.skipGap .code { offset } t = some (p, here))
    (hscan : Token.scan here = (token, raw, rest)) :
    next offset t = ⟨token, p.offset, p.offset + byteLength raw, p.newline, p.notes, here, rest⟩ := by
  unfold next
  simp only [hgap, hscan]

theorem next_name (hx : x.isIdentifierName = true) (hr : r.EndsName) :
    next offset (x ++ r) = ⟨.word x true, offset, offset + byteLength x, false, {}, x ++ r, r⟩ := by
  refine next_of_skipGap (p := { offset }) ?_ (Token.scan_name hx hr)
  cases x with
  | nil => cases hx
  | cons c x =>
    rw [isIdentifierName, Bool.and_eq_true] at hx
    exact Token.skipGap_name _ _ hx.1

theorem next_blank_name (hx : x.isIdentifierName = true) (hr : r.EndsName) :
    next offset (' ' :: (x ++ r)) =
      ⟨.word x true, offset + 1, offset + 1 + byteLength x, false, {}, x ++ r, r⟩ := by
  refine next_of_skipGap (p := { offset := offset + 1 }) ?_ (Token.scan_name hx hr)
  cases x with
  | nil => cases hx
  | cons c x =>
    rw [isIdentifierName, Bool.and_eq_true] at hx
    exact Token.skipGap_name _ _ hx.1

end Lexeme

namespace Grammar

open Parse

/-- The cursor after its token. -/
def Cursor.moved (c : Cursor) : Cursor := { c with toLexeme := c.after, lastStop := c.stop }

/-! ### What small parsers answer -/

namespace Parse

variable {α β σ : Type}

section

variable (ctx : Context) (c : Cursor)

theorem run_pure (a : α) : (pure a : Parse α) ctx c = (some a, c) := rfl

theorem run_check (b : Bool) : check b ctx c = (if b then some () else none, c) := by
  cases b <;> rfl

theorem run_ite (b : Prop) [Decidable b] (p q : Parse α) :
    (if b then p else q) ctx c = if b then p ctx c else q ctx c := by split <;> rfl

theorem run_get : (get : Parse Cursor) ctx c = (some c, c) := rfl

theorem run_read : (read : Parse Context) ctx c = (some ctx, c) := rfl

theorem run_token : token ctx c = (some c.token, c) := rfl

theorem run_start : start ctx c = (some c.start, c) := rfl

theorem run_newline : newline ctx c = (some c.newline, c) := rfl

theorem run_peek : peek ctx c = (some c.after, c) := rfl

theorem run_typed : typed ctx c = (some ctx.typescript, c) := rfl

theorem run_node (k : Kind) (s : Nat) (ps : List Node) :
    node k s ps ctx c = (some (.mk k ⟨s, c.lastStop⟩ ps), c) := rfl

theorem run_advance : advance ctx c = (some (), c.moved) := rfl

theorem run_isPunct (s : Text) : isPunct s ctx c = (some (decide (c.token = .punct s)), c) := rfl

theorem run_isWord (s : Text) : isWord s ctx c = (some (decide (c.token = .word s true)), c) := rfl

theorem run_isChar (d : Char) : isChar d ctx c = (some (decide (c.here.head? = some d)), c) := rfl

end

variable {ctx : Context} {c d : Cursor}

theorem run_eat {s : Text} (h : c.token = .punct s) : eat s ctx c = (some true, c.moved) := by
  simp only [eat, run_bind, run_isPunct, run_ite, run_advance, run_pure, h, Option.elim_some,
    decide_true, if_true]

theorem run_eat_of_ne {s : Text} (h : c.token ≠ .punct s) : eat s ctx c = (some false, c) := by
  simp only [eat, run_bind, run_isPunct, run_ite, run_pure, h, Option.elim_some, decide_false,
    Bool.false_eq_true, if_false]

theorem run_semicolon (h : c.token = .punct ";") : semicolon ctx c = (some (), c.moved) := by
  simp only [semicolon, run_bind, run_eat h, run_ite, run_pure, Option.elim_some, if_true]

variable {step : σ → Parse (Step σ α)} {s t : σ} {a : α} {n : Nat}

theorem iterate_of_done (h : step s ctx c = (some (.done a), d)) :
    iterate step (n + 1) s ctx c = (some a, d) := by
  simp only [iterate, run_bind, h, run_pure, Option.elim_some]

theorem iterate_of_more (h : step s ctx c = (some (.more t), d)) :
    iterate step (n + 1) s ctx c = iterate step n t ctx d := by
  simp only [iterate, run_bind, h, Option.elim_some]

theorem iterate_of_none (h : step s ctx c = (none, d)) :
    iterate step (n + 1) s ctx c = (none, d) := by
  simp only [iterate, run_bind, h, Option.elim_none]

theorem loop_of_done (hbound : 0 < c.bound) (h : step s ctx c = (some (.done a), d)) :
    loop s step ctx c = (some a, d) := by
  obtain ⟨n, hn⟩ := Nat.exists_eq_succ_of_ne_zero (Nat.pos_iff_ne_zero.1 hbound)
  simp only [loop, run_bind, run_get, hn, iterate_of_done h, Option.elim_some]

end Parse

/-! ### Expressions -/

/-- The signs that follow a name in an alias. -/
def aliasSigns : List Text := [":", "=", ";"]

/-- A word at the cursor that is not reserved, and after it a sign that ends an operand. -/
structure WordAt (ctx : Context) (c : Cursor) (x p : Text) : Prop where
  token : c.token = .word x true
  notes : c.notes = {}
  spelled : x.isIdentifierName = true
  unreserved : x.oneOf reserved = false
  next : c.after.token = .punct p
  ends : p ∈ aliasSigns
  here : c.after.here.head? ≠ some '<'
  bound : 0 < c.bound
  yield : ctx.yield = false

/-- A word at the cursor that is a name. -/
structure NameAt (ctx : Context) (c : Cursor) (x p : Text) : Prop extends WordAt ctx c x p where
  awaited : (ctx.await && x = "await") = false

variable {g : Rules} {ctx : Context} {c d : Cursor} {x p : Text}

namespace WordAt

variable (h : WordAt ctx c x p)

include h

theorem ne_reserved {s : String} (hs : s ∈ reserved) : x ≠ s.toList := by
  rintro rfl
  have hreserved : Text.oneOf s.toList reserved = true :=
    List.any_eq_true.2 ⟨s, hs, decide_eq_true rfl⟩
  exact Bool.false_ne_true (h.unreserved.symm.trans hreserved)

theorem ne_words : x ≠ "this" ∧ x ≠ "null" ∧ x ≠ "true" ∧ x ≠ "false" ∧ x ≠ "super" ∧
    x ≠ "function" ∧ x ≠ "class" ∧ x ≠ "new" ∧ x ≠ "import" ∧ x ≠ "export" ∧ x ≠ "enum" ∧
    x ≠ "const" ∧ x ≠ "var" ∧ x ≠ "if" ∧ x ≠ "for" ∧ x ≠ "while" ∧ x ≠ "do" ∧ x ≠ "switch" ∧
    x ≠ "return" ∧ x ≠ "throw" ∧ x ≠ "break" ∧ x ≠ "continue" ∧ x ≠ "try" ∧ x ≠ "debugger" ∧
    x ≠ "with" := by
  and_intros <;> exact h.ne_reserved (by decide)

theorem ne_signs : p ≠ "(" ∧ p ≠ "<" ∧ p ≠ "." ∧ p ≠ "[" ∧ p ≠ "?." ∧ p ≠ "!" ∧ p ≠ "++" ∧
    p ≠ "--" ∧ p ≠ "=>" ∧ p ≠ "?" ∧ p ≠ "," ∧ p ≠ "\x7b" := by
  have hsign {s : Text} (hs : s ∉ aliasSigns) : p ≠ s := fun hp => hs (hp ▸ h.ends)
  and_intros <;> exact hsign (by decide)

theorem moved_token : c.moved.token = .punct p := h.next

theorem run_isAsyncFunction : isAsyncFunction ctx c = (some false, c) := by
  simp only [isAsyncFunction, run_bind, run_isWord, run_ite, run_peek, h.next, run_pure,
    reduceCtorEq, decide_false, Bool.false_and, ite_self, Option.elim_some]

/-- No operator before an operand is a name. -/
theorem find?_unaryOp : UnaryOp.all.find? (fun op => decide (op.symbol = x)) = none := by
  have hword : ∀ op : UnaryOp, op.isWord = true → ∃ s ∈ reserved, op.symbol = s.toList := by
    intro op
    cases op <;> decide
  have hsign : ∀ op : UnaryOp, op.isWord = false → op.symbol.isIdentifierName = false := by
    intro op
    cases op <;> decide
  refine List.find?_eq_none.2 fun op _ hop => ?_
  have hop : op.symbol = x := of_decide_eq_true hop
  cases hisWord : op.isWord with
  | true =>
    obtain ⟨s, hs, hsymbol⟩ := hword op hisWord
    exact h.ne_reserved hs (hop ▸ hsymbol)
  | false =>
    have hspelled := h.spelled
    rw [← hop, hsign op hisWord] at hspelled
    cases hspelled

theorem run_arrow? : arrow? g ctx c = (some none, c) := by
  have hguess : guessArrow ctx c = (some .no, c) := by
    have hafter : c.toLexeme.after.token = .punct p := h.next
    simp only [guessArrow, guessHead, run_bind, run_get, run_ite, run_pure,
      run_typed, h.token, hafter, h.ne_signs, Option.elim_some, if_false, decide_false,
      Bool.false_and, Bool.false_eq_true, ite_self]
  simp only [arrow?, fullArrow?, run_bind, run_start, run_isWord, hguess, run_pure, run_ite, run_peek,
    h.next, Option.elim_some, ite_self]

end WordAt

namespace NameAt

variable (h : NameAt ctx c x p)

include h

theorem isName : isName ctx x = true := by
  simp only [Grammar.isName, h.unreserved, h.awaited, h.yield, Bool.false_and, Bool.not_false,
    Bool.and_self]

theorem run_name : name ctx c = (some x, c.moved) := by
  simp only [name, nameHere?, run_bind, run_token, h.token, run_read, run_pure, h.isName, if_true,
    run_advance, Option.elim_some]

theorem run_primary :
    primary g ctx c = (some (.mk (.identifier x) ⟨c.start, c.stop⟩ []), c.moved) := by
  simp only [primary, run_bind, run_start, run_token, h.token, run_ite,
    h.run_isAsyncFunction, h.run_name, run_node, Option.elim_some, Bool.not_true,
    Bool.false_eq_true, if_false, decide_false, Bool.or_false, h.ne_words]
  rfl

theorem run_link? {s : Nat} {e : Node} :
    link? g s true false e ctx c.moved = (some none, c.moved) := by
  have hchar : c.moved.here.head? ≠ some '<' := h.here
  simp only [link?, callTypeArguments?, run_bind, run_token, h.moved_token,
    run_ite, run_typed, run_isChar, hchar, run_pure, run_newline, Option.elim_some, decide_false,
    Bool.false_eq_true, if_false, if_true, Bool.and_false, Bool.false_and, Bool.not_false,
    h.ne_signs]

theorem run_links :
    links g true ctx c = (some (.mk (.identifier x) ⟨c.start, c.stop⟩ []), c.moved) := by
  simp only [links, run_bind, run_start, h.run_primary, Option.elim_some]
  refine loop_of_done h.bound ?_
  simp only [run_bind, h.run_link?, Option.elim_some, run_pure, Bool.false_eq_true, if_false]

theorem run_unaryRule :
    unaryRule g ctx c = (some (.mk (.identifier x) ⟨c.start, c.stop⟩ []), c.moved) := by
  have hawaits : (decide (x = "await") && ctx.await) = false := by
    rw [Bool.and_comm, h.awaited]
  simp only [unaryRule, unaryOp?, updateOp?, wordFollows, run_bind, run_start,
    run_token, h.token, h.find?_unaryOp, run_pure, run_isWord, Token.word.injEq, and_true, run_read,
    hawaits, run_ite, run_isPunct, reduceCtorEq, decide_false, Bool.false_eq_true, if_false,
    run_peek, h.next, Bool.and_false, Bool.not_false, run_check, if_true, h.run_links,
    Option.elim_some, h.moved_token, Token.punct.injEq, h.ne_signs]

theorem run_binaryRest {s level : Nat} {e : Node} {parens : Bool} :
    binaryRest g s level e parens ctx c.moved = (some e, c.moved) := by
  have hop : ∀ q ∈ aliasSigns, BinaryOp.ofSymbol? q = none := by decide
  refine loop_of_done h.bound ?_
  simp only [binaryOp?, run_bind, run_typed, run_isWord, run_newline, run_token, h.moved_token,
    hop p h.ends, run_pure, run_ite, Option.elim_some, reduceCtorEq, decide_false, Bool.or_false,
    Bool.and_false, Bool.false_and, Bool.false_eq_true, if_false]

theorem run_operandRule {level : Nat} :
    operandRule g level ctx c = (some (.mk (.identifier x) ⟨c.start, c.stop⟩ []), c.moved) := by
  simp only [operandRule, run_bind, run_start, run_isPunct, run_token, h.token, run_get, h.notes,
    h.run_unaryRule, h.run_binaryRest, Option.elim_some, Bool.false_eq_true, if_false]

/-- A name before a sign of assignment is assigned to. -/
theorem run_assignmentRule_of_some {op : Option BinaryOp} (hop : assignOfSymbol? p = some op) :
    assignmentRule g ctx c =
      assignment g c.start false op (.mk (.identifier x) ⟨c.start, c.stop⟩ []) ctx c.moved := by
  simp only [assignmentRule, wordFollows, assignOp?, run_bind, run_start, run_get,
    run_isWord, h.token, h.yield, run_ite, run_read, Node.kind, Bool.false_eq_true, if_false,
    run_peek, h.next, run_pure, Bool.not_false, run_check, if_true, h.run_arrow?, run_isPunct,
    h.run_operandRule, Option.elim_some, h.moved_token, Token.punct.injEq, h.ne_signs, decide_false,
    run_token, hop, reduceCtorEq, ite_self]

/-- A name before another sign is an expression by itself. -/
theorem run_assignmentRule (hop : assignOfSymbol? p = none) :
    assignmentRule g ctx c = (some (.mk (.identifier x) ⟨c.start, c.stop⟩ []), c.moved) := by
  have hquestion : c.moved.token ≠ .punct "?" := by
    rw [h.moved_token]
    simp only [ne_eq, Token.punct.injEq, h.ne_signs, not_false_eq_true]
  simp only [assignmentRule, wordFollows, assignOp?, conditional, run_bind,
    run_start, run_get, h.notes, run_isWord, h.token, h.yield, run_ite, run_read, Node.kind,
    Bool.false_eq_true, if_false, run_peek, h.next, run_pure, Bool.not_false, run_check, if_true,
    h.run_arrow?, run_isPunct, h.run_operandRule, Option.elim_some, h.moved_token,
    Token.punct.injEq, h.ne_signs, decide_false, run_token, hop, run_eat_of_ne hquestion,
    reduceCtorEq, ite_self, id_eq]

theorem run_expressionRule (hop : assignOfSymbol? p = none) :
    expressionRule g ctx c = (some (.mk (.identifier x) ⟨c.start, c.stop⟩ []), c.moved) := by
  simp only [expressionRule, run_bind, run_start, h.run_assignmentRule hop,
    run_isPunct, h.moved_token, Token.punct.injEq, h.ne_signs, decide_false, Bool.false_eq_true,
    if_false, run_ite, run_pure, Option.elim_some]

end NameAt

/-! ### Statements -/

namespace WordAt

variable (h : WordAt ctx c x p)

include h

theorem run_typeDeclaration? {s : Nat} {declare : Bool} :
    typeDeclaration? g s declare ctx c = (some none, c) := by
  simp only [typeDeclaration?, beginsNamespace, beginsDeclaration, run_bind,
    run_typed, run_ite, run_token, h.token, run_peek, h.next, run_pure, Option.elim_some,
    h.ne_words, h.ne_signs, Bool.and_false, decide_false, Bool.false_and, Bool.false_eq_true,
    if_false, ite_self]

theorem run_varKind? (hx : x ≠ "let") : varKind? ctx c = (some none, c) := by
  simp only [varKind?, run_bind, run_peek, run_token, h.token, h.next, run_ite,
    run_pure, Option.elim_some, hx, if_false, reduceCtorEq, h.ne_words, decide_false,
    Bool.and_false, Bool.false_and, Bool.false_eq_true, ite_self]

theorem run_declaration? (hx : x ≠ "let") : declaration? g ctx c = (some none, c) := by
  simp only [declaration?, isClass, run_bind, run_start, h.run_typeDeclaration?,
    h.run_varKind? hx, run_isWord, h.token, Token.word.injEq, and_true, h.ne_words,
    h.run_isAsyncFunction, run_peek, run_typed, h.next, reduceCtorEq, run_ite, run_pure,
    Option.elim_some, decide_false, Bool.or_false, Bool.and_false, Bool.false_and,
    Bool.false_eq_true, if_false, ite_self]

theorem run_keywordStatement? : keywordStatement? g x ctx c = (some none, c) := by
  simp only [keywordStatement?, run_bind, run_start, run_pure, Option.elim_some,
    if_false, h.ne_words]

/-- A statement that begins with a word is an expression, or has it as its label. -/
theorem run_statementRule (hx : x ≠ "let") :
    statementRule g ctx c = expressionStatement g ctx c := by
  have hsame (r : Option Node × Cursor) : (r.1.elim (none, r.2) fun n => (some n, r.2)) = r := by
    rcases r with ⟨_ | n, d⟩ <;> rfl
  simp only [statementRule, plainStatement, run_bind, run_get, h.notes, run_start,
    run_token, h.token, run_ite, run_pure, Option.elim_some, hx, if_false, h.ne_words,
    h.run_declaration? hx, h.run_keywordStatement?, Bool.false_eq_true, hsame]

/-- A name before a colon is the label of a statement. -/
theorem run_statementRule_label {s : Span} {ps : List Node} (hx : x ≠ "let") (hp : p = ":")
    (hself : withIn (g .expression) ctx c = (some (.mk (.identifier x) s ps), c.moved)) :
    statementRule g ctx c =
      (body g >>= fun b => node (.labeled x) c.start [b]) ctx c.moved.moved := by
  have hcolon : c.moved.token = .punct ":" := hp ▸ h.moved_token
  rw [h.run_statementRule hx]
  simp only [expressionStatement, run_bind, run_start, hself, Node.kind, run_ite, run_eat hcolon,
    if_true, Option.elim_some]

theorem letIsName_after (hp : p = "=") : letIsName c.after = true := by
  have hassign : (assignOfSymbol? "=").isSome = true := by decide
  simp only [letIsName, h.next, hp, hassign, Bool.or_true, Bool.true_or]

/-- An assignment to a name is a statement, also if the name is `let`. -/
theorem run_statementRule_assign {op : Option BinaryOp} {s : Span} {ps : List Node} (hp : p = "=")
    (hself : withIn (g .expression) ctx c = (some (.mk (.assign op) s ps), d))
    (hd : d.token = .punct ";") : statementRule g ctx c =
      (some (.mk .expressionStatement ⟨c.start, d.stop⟩ [.mk (.assign op) s ps]), d.moved) := by
  by_cases hx : x = "let"
  · simp only [statementRule, plainStatement, letStatement, run_bind, run_get, h.notes, run_start,
      run_token, h.token, run_ite, run_pure, run_peek, Option.elim_some, eq_true hx, if_true,
      h.letIsName_after hp, Bool.true_or, hself, run_semicolon hd, run_node, Bool.false_eq_true,
      if_false]
    rfl
  · rw [h.run_statementRule hx]
    simp only [expressionStatement, run_bind, run_start, hself, Node.kind, run_semicolon hd, run_node,
      Option.elim_some]
    rfl

/-- An assignment to a name can stand under a label. -/
theorem run_body (hp : p = "=") : body g ctx c =
    (g .statement >>= fun b => check (isBody b) >>= fun _ => pure b) ctx c := by
  simp only [body, run_bind, run_start, run_peek, run_isWord, h.letIsName_after hp, run_ite,
    Option.elim_some, Bool.not_true, Bool.and_false, Bool.false_and, Bool.false_eq_true, if_false]

end WordAt

theorem NameAt.run_assign {e : Node} (h : NameAt ctx c x "=")
    (hself : g .assignment ctx c.moved.moved = (some e, d)) : assignmentRule g ctx c =
      (some (.mk (.assign none) ⟨c.start, d.lastStop⟩ [.mk (.target x) ⟨c.start, c.stop⟩ [], e]), d) := by
  have hop : assignOfSymbol? "=" = some none := by decide
  rw [h.run_assignmentRule_of_some hop]
  simp only [assignment, run_bind, run_check, run_get, Option.isNone_none, if_true, assignTarget?,
    simpleTarget?, Node.kind, run_advance, hself, run_node, Option.elim_some, Bool.false_and,
    Bool.not_false]

theorem run_expressionRule_of_assignment {e : Node} (h : assignmentRule g ctx c = (some e, d))
    (hd : d.token = .punct ";") : expressionRule g ctx c = (some e, d) := by
  have hcomma : ¬ (";".toList = ",".toList) := by decide
  simp only [expressionRule, run_bind, run_start, h, run_isPunct, hd, Token.punct.injEq, hcomma,
    decide_false, Bool.false_eq_true, if_false, run_ite, run_pure, Option.elim_some]

/-! ### The word `await` -/

theorem exists_run_wordFollows (allowed : Text → Bool) :
    ∃ b, wordFollows allowed ctx c = (some b, c) := by
  simp only [wordFollows, run_bind, run_peek, Option.elim_some]
  cases c.after.token <;> exact ⟨_, rfl⟩

/-- A sign of assignment is no operand. -/
theorem run_unaryRule_of_equals (h : c.token = .punct "=") : unaryRule g ctx c = (none, c) := by
  have hop : UnaryOp.all.find? (fun op => decide (op.symbol = "=".toList)) = none := by decide
  have hne : ∀ s ∈ ["++", "--", "<", "(", "[", "\x7b", "/", "/=", "@"],
      ¬ ("=".toList = String.toList s) := by decide
  obtain ⟨b, hb⟩ : ∃ b, wordFollows (decide <| · = "of".toList) ctx c = (some b, c) :=
    exists_run_wordFollows _
  simp only [List.forall_mem_cons] at hne
  simp only [unaryRule, unaryOp?, updateOp?, links, primary, run_bind, run_start, run_token, h, hop,
    run_pure, run_isWord, run_read, run_ite, run_isPunct, reduceCtorEq, decide_false, Bool.false_and,
    Bool.false_eq_true, if_false, hb, Bool.not_false, run_check, if_true, Option.elim_some,
    Token.punct.injEq, hne, Bool.or_self]
  rfl

/-- Where `await` is an operator, it needs an operand. -/
theorem WordAt.run_await (h : WordAt ctx c "await" "=") (hawait : ctx.await = true)
    (hself : g .unary ctx c.moved = (none, d)) : expressionRule g ctx c = (none, d) := by
  have hyield : ¬ ("await".toList = "yield".toList) := by decide
  simp only [expressionRule, assignmentRule, operandRule, unaryRule, unaryOp?, run_bind, run_start,
    run_get, run_isWord, run_token, h.token, h.find?_unaryOp, h.run_arrow?, Token.word.injEq, and_true,
    hyield, decide_false, decide_true, Bool.false_eq_true, if_false, if_true, run_ite, run_read, hawait,
    run_pure, run_isPunct, Bool.and_self, run_advance, hself, Option.elim_some, Option.elim_none]

/-! ### Modules of one statement -/

section

variable {n : Nat} (hbound : c.bound = n + 2) (hword : c.token = .word x true)

include hbound hword

theorem moduleItems_of_some {s : Node} (hself : g .statement ctx c = (some s, d))
    (hd : d.token = .eof) : moduleItems g ctx c = (some [s], d) := by
  simp only [moduleItems, statements, loop, run_bind, run_get, Option.elim_some, hbound]
  rw [iterate_of_more (t := (false, [s])) (d := d), iterate_of_done (a := [s]) (d := d)]
  · simp only [run_bind, run_token, hd, run_pure, run_ite, Option.elim_some, decide_true, if_true,
      List.reverse_cons, List.reverse_nil, List.nil_append]
  · simp only [rawHere?, run_bind, run_token, hword, hself, run_pure, run_ite, Option.elim_some,
      reduceCtorEq, decide_false, Bool.false_eq_true, if_false]

theorem moduleItems_of_none (hself : g .statement ctx c = (none, d)) :
    moduleItems g ctx c = (none, d) := by
  simp only [moduleItems, statements, loop, run_bind, run_get, Option.elim_some, hbound]
  refine iterate_of_none ?_
  simp only [rawHere?, run_bind, run_token, hword, hself, run_pure, run_ite, Option.elim_some,
    Option.elim_none, reduceCtorEq, decide_false, Bool.false_eq_true, if_false]

end

variable {fuel : Nat}

/-! ### The alias -/

/-- What follows the name in an alias. -/
def aliasRest (key : Text) : Text := ' ' :: '=' :: ' ' :: (key ++ [';'])

/-- The text of an alias. -/
def aliasText (n key : Text) : Text := "$: " ++ n ++ " = " ++ key ++ ";"

/-- The alias of a prop, by which the name `n` follows the prop `key`. -/
def aliasOf (n key : Text) : Node :=
  let nameStop := 3 + byteLength n
  let keyStop := nameStop + 3 + byteLength key
  .mk (.labeled reactiveLabel) ⟨0, keyStop + 1⟩
    [.mk .expressionStatement ⟨3, keyStop + 1⟩
      [.mk (.assign none) ⟨3, keyStop⟩
        [.mk (.target n) ⟨3, nameStop⟩ [], .mk (.identifier key) ⟨nameStop + 3, keyStop⟩ []]]]

/-- The cursor at a lexeme of a source. -/
def Cursor.on (bound : Nat) (l : Lexeme) (lastStop : Nat) : Cursor :=
  { toLexeme := l, lastStop, bound }

variable {typescript : Bool} {n key : Text}

/-- The cursor at the label of an alias. -/
def labelCursor (n key : Text) : Cursor :=
  .on ((aliasText n key).length + 2)
    ⟨.word "$" true, 0, 1, false, {}, aliasText n key, ':' :: ' ' :: (n ++ aliasRest key)⟩ 0

/-- The cursor at the name of an alias. -/
def nameCursor (n key : Text) : Cursor :=
  .on ((aliasText n key).length + 2)
    ⟨.word n true, 3, 3 + byteLength n, false, {}, n ++ aliasRest key, aliasRest key⟩ 2

/-- The cursor at the key of an alias. -/
def keyCursor (n key : Text) : Cursor :=
  .on ((aliasText n key).length + 2)
    ⟨.word key true, 3 + byteLength n + 3, 3 + byteLength n + 3 + byteLength key, false, {},
      key ++ [';'], [';']⟩ (3 + byteLength n + 2)

theorem endsName_cons {t : Text} {c : Char} (hc : c ∈ [' ', ':', ';']) : EndsName (c :: t) := by
  have hall : [' ', ':', ';'].all (fun c => !isNamePart c && c ≠ '\\') = true := by decide +kernel
  intro d hd
  cases hd
  simpa using List.all_eq_true.1 hall c hc

theorem startCursor_aliasText : startCursor (aliasText n key) = labelCursor n key := by
  have htext : aliasText n key = ['$'] ++ ':' :: ' ' :: (n ++ aliasRest key) := by
    show ['$', ':', ' '] ++ n ++ [' ', '=', ' '] ++ key ++ [';'] = _
    simp only [aliasRest, List.append_assoc, List.cons_append, List.nil_append]
  have hskip : skipHashbang (aliasText n key) = (0, aliasText n key) := by
    rw [htext]
    rfl
  have hnext : Lexeme.next 0 (aliasText n key) = (labelCursor n key).toLexeme := by
    rw [labelCursor, htext]
    exact Lexeme.next_name (by decide) (endsName_cons (by decide))
  unfold startCursor
  rw [hskip]
  simp only [hnext]
  rfl

theorem labelCursor_moved (hn : n.isIdentifierName = true) :
    (labelCursor n key).moved.moved = nameCursor n key := by
  have hends : EndsName (aliasRest key) := endsName_cons (by decide)
  show Cursor.on _ (Lexeme.next 2 (' ' :: (n ++ aliasRest key))) 2 = _
  rw [Lexeme.next_blank_name hn hends]
  rfl

theorem nameCursor_moved (hkey : key.isIdentifierName = true) :
    (nameCursor n key).moved.moved = keyCursor n key := by
  show Cursor.on _ (Lexeme.next (3 + byteLength n + 2) (' ' :: (key ++ [';'])))
    (3 + byteLength n + 2) = _
  rw [Lexeme.next_blank_name hkey (endsName_cons (by decide))]
  rfl

theorem nameAt_labelCursor : NameAt { typescript } (labelCursor n key) "$" ":" where
  token := rfl
  notes := rfl
  spelled := by decide
  unreserved := by decide
  next := rfl
  ends := by decide
  here := by
    show some ':' ≠ some '<'
    decide
  bound := Nat.succ_pos _
  yield := rfl
  awaited := rfl

theorem wordAt_nameCursor (hn : n.isIdentifierName = true) (hreserved : n.oneOf reserved = false) :
    WordAt { typescript } (nameCursor n key) n "=" where
  token := rfl
  notes := rfl
  spelled := hn
  unreserved := hreserved
  next := rfl
  ends := by decide
  here := by
    show some '=' ≠ some '<'
    decide
  bound := Nat.succ_pos _
  yield := rfl

theorem nameAt_keyCursor (hkey : key.isIdentifierName = true) (hreserved : key.oneOf reserved = false)
    (hawait : key ≠ "await") : NameAt { typescript } (keyCursor n key) key ";" where
  token := rfl
  notes := rfl
  spelled := hkey
  unreserved := hreserved
  next := rfl
  ends := by decide
  here := by
    show some ';' ≠ some '<'
    decide
  bound := Nat.succ_pos _
  yield := rfl
  awaited := (Bool.true_and _).trans (decide_eq_false hawait)

/-- An alias is one statement under the label that its text begins with. -/
theorem run_alias (hn : n.isIdentifierName = true) :
    rules (fuel + 3) .statement { typescript } (labelCursor n key) =
      (body (rules (fuel + 2)) >>= fun b => node (.labeled "$") 0 [b]) { typescript }
        (nameCursor n key) := by
  have hlabel : NameAt { typescript } (labelCursor n key) "$" ":" := nameAt_labelCursor
  rw [← labelCursor_moved hn]
  exact hlabel.run_statementRule_label (g := rules (fuel + 2)) (by decide) rfl
    (hlabel.run_expressionRule (by decide))

theorem run_alias_of_nameAt (hname : NameAt { typescript } (nameCursor n key) n "=")
    (hkey : NameAt { typescript } (keyCursor n key) key ";") :
    rules (fuel + 4) .statement { typescript } (labelCursor n key) =
      (some (aliasOf n key), (keyCursor n key).moved.moved) := by
  have hvalue := hkey.run_assignmentRule (g := rules fuel) (by decide)
  rw [← nameCursor_moved hkey.spelled] at hvalue
  have hassign := hname.run_assign (g := rules (fuel + 1)) hvalue
  rw [nameCursor_moved hkey.spelled] at hassign
  have hexpression := run_expressionRule_of_assignment hassign hkey.moved_token
  have hstatement : rules (fuel + 3) .statement { typescript } (nameCursor n key) = _ :=
    hname.run_statementRule_assign (g := rules (fuel + 2)) rfl hexpression hkey.moved_token
  rw [run_alias hname.spelled, run_bind, hname.run_body rfl]
  simp only [run_bind, hstatement, Option.elim_some, isBody, Node.kind, run_check, if_true, run_pure,
    run_node]
  rfl

/-- The word `await` has no alias. -/
theorem run_alias_await :
    ∃ d, rules (fuel + 4) .statement { typescript } (labelCursor "await" key) = (none, d) := by
  have hname : WordAt { typescript } (nameCursor "await" key) "await" "=" :=
    wordAt_nameCursor (by decide) (by decide)
  have hunary : unaryRule (rules fuel) { typescript } _ = _ :=
    run_unaryRule_of_equals hname.moved_token
  have hexpression := hname.run_await (g := rules (fuel + 1)) rfl hunary
  have hstatement : rules (fuel + 3) .statement { typescript } (nameCursor "await" key) =
      (none, (nameCursor "await" key).moved) := by
    refine (hname.run_statementRule (g := rules (fuel + 2)) (by decide)).trans ?_
    have hself : withIn (rules (fuel + 2) .expression) { typescript } (nameCursor "await" key) = _ :=
      hexpression
    simp only [expressionStatement, run_bind, run_start, hself, Option.elim_some, Option.elim_none]
  refine ⟨(nameCursor "await" key).moved, ?_⟩
  rw [run_alias hname.spelled, run_bind, hname.run_body rfl]
  simp only [run_bind, hstatement, Option.elim_none]

end Grammar

namespace Template

open Grammar

variable {typescript : Bool} {n key : Text}

/-- The fuel for an alias is enough. -/
theorem exists_fuel (t : Text) : ∃ fuel, 4 * (t.length + 2) = fuel + 4 :=
  ⟨4 * (t.length + 1), by omega⟩

/-- An alias of a name is read as the assignment to it. -/
theorem read_alias (hn : n.isIdentifierName = true) (hreserved : n.oneOf reserved = false)
    (hawait : n ≠ "await") (hkey : key.isIdentifierName = true)
    (hkeyReserved : key.oneOf reserved = false) (hkeyAwait : key ≠ "await") :
    read typescript (aliasText n key) = .ok (aliasOf n key) := by
  obtain ⟨fuel, hfuel⟩ := exists_fuel (aliasText n key)
  have hname : NameAt { typescript } (nameCursor n key) n "=" :=
    ⟨wordAt_nameCursor hn hreserved, (Bool.true_and _).trans (decide_eq_false hawait)⟩
  have hrun : rules (fuel + 4) .statement _ _ = _ :=
    run_alias_of_nameAt hname (nameAt_keyCursor hkey hkeyReserved hkeyAwait)
  have hitems := moduleItems_of_some (c := labelCursor n key) rfl rfl hrun rfl
  have hformed : wellFormed typescript [aliasOf n key] = true := by
    cases typescript <;> rfl
  simp only [read, parseModule?, startCursor_aliasText, hfuel, hitems, Option.bind_eq_bind,
    Option.bind_some, hformed, guard, if_true]
  rfl

/-- An alias of the word `await` is not read. -/
theorem read_alias_await {a : Node} : read typescript (aliasText "await" key) ≠ .ok a := by
  obtain ⟨fuel, hfuel⟩ := exists_fuel (aliasText "await" key)
  obtain ⟨d, hrun⟩ : ∃ d, rules (fuel + 4) .statement { typescript } _ = (none, d) :=
    run_alias_await
  have hitems := moduleItems_of_none (c := labelCursor "await" key) rfl rfl hrun
  simp only [read, parseModule?, startCursor_aliasText, hfuel, hitems, Option.bind_eq_bind,
    Option.bind_none]
  exact fun h => by cases h

end Template

end Unhook
