import Mathlib.Data.Option.Basic
import Unhook.Grammar.Cursor
import Unhook.Proofs.Position
import Unhook.Proofs.Returns

/-!
# Reading

What a parser answers is made of what the parsers within it answer, and it ends
no earlier in the source than it began. Both are said once for each way of
putting parsers together, as instances of three classes, so that a rule of the
grammar has them by the way it is written.

* `Forward`: a parser that never goes back;
* `Calm`: one whose answers, moreover, have no returns;
* `Gives`: one whose answers have returns in a region only, if the region has
  all that can begin while it reads.

The nodes in an answer are its `nodes`, whatever its type; they are `Within` a
region if they are sound and their returns are there.
-/

namespace Unhook

/-! ### Where lexemes begin and end -/

namespace Token

variable {r : Token × Text × Text} {t : Text}

theorem offset_le_skipGap {g : Gap} {p q : Passed} {t here : Text}
    (h : skipGap g p t = some (q, here)) : p.offset ≤ q.offset := by
  fun_induction skipGap g p t with
  | case1 p t ih | case2 p t ih | case8 p t ih =>
    exact Nat.le_trans (Nat.le_add_right _ 2) (ih h)
  | case3 p c t _ _ _ ih | case4 p c t _ _ _ _ ih | case6 p c t _ ih | case7 p c t _ ih
  | case9 p c t _ ih =>
    exact Nat.le_trans (Nat.le_add_right _ c.utf8Size) (ih h)
  | case5 | case10 | case11 => simp_all

/-- Whether a token is a word. -/
def isWord : Token → Bool
  | .word _ _ => true
  | _ => false

/-- Whether a token is written with some characters. -/
def isSolid : Token → Bool
  | .eof | .bad => false
  | _ => true

theorem isSolid_of_isWord {t : Token} (h : t.isWord = true) : t.isSolid = true := by
  cases t with
  | word => rfl
  | _ => cases h

theorem scanName_raw_ne_nil {skip : Nat} {t name raw rest : Text}
    (h : scanName skip t = some (name, raw, rest)) (hname : name ≠ []) : raw ≠ [] := by
  unfold scanName at h
  grind [Option.map_eq_some_iff]

/-- Digits are written with some characters. -/
theorem scanDigits_raw_ne_nil {isDigit : Char → Bool} {t digits raw rest : Text}
    (h : scanDigits isDigit t = some (digits, raw, rest)) (hdigits : digits ≠ []) : raw ≠ [] := by
  unfold scanDigits at h
  dsimp only at h
  split at h
  · obtain ⟨rfl, rfl, -⟩ : _ ∧ _ ∧ _ := by simpa using h
    intro hraw
    exact hdigits (by rw [hraw]; rfl)
  · cases h

theorem scanBased_raw_ne_nil {base : Nat} {isDigit : Char → Bool} {mark t : Text}
    (hmark : mark ≠ []) (h : scanBased base isDigit mark t = some r) : r.2.1 ≠ [] := by
  simp only [scanBased, Option.bind_eq_bind, Option.bind_eq_some_iff] at h
  obtain ⟨d, -, u, -, h⟩ := h
  split at h <;> obtain ⟨u, -, h⟩ := Option.bind_eq_some_iff.1 h <;> cases h <;> simp [hmark]

theorem scanDecimal_raw_ne_nil (h : scanDecimal t = some r) : r.2.1 ≠ [] := by
  simp only [scanDecimal, Option.bind_eq_bind, Option.bind_eq_some_iff] at h
  obtain ⟨⟨whole, rawWhole, u⟩, hwhole, h⟩ := h
  dsimp only at h
  split at h
  · obtain ⟨v, -, h⟩ := Option.bind_eq_some_iff.1 h
    cases h
    exact List.append_ne_nil_of_right_ne_nil _ (by decide)
  · split at h
    · obtain ⟨f, -, h⟩ := Option.bind_eq_some_iff.1 h
      obtain ⟨v, -, h⟩ := Option.bind_eq_some_iff.1 h
      obtain ⟨w, -, h⟩ := Option.bind_eq_some_iff.1 h
      obtain ⟨x, -, h⟩ := Option.bind_eq_some_iff.1 h
      cases h
      simp
    · -- without a point there are digits before it
      obtain ⟨v, hguard, h⟩ := Option.bind_eq_some_iff.1 h
      obtain ⟨w, -, h⟩ := Option.bind_eq_some_iff.1 h
      obtain ⟨x, -, h⟩ := Option.bind_eq_some_iff.1 h
      cases h
      have hne : rawWhole ≠ [] := by
        apply scanDigits_raw_ne_nil hwhole
        rintro rfl
        cases hguard
      simp [hne]

theorem scanNumber_raw_ne_nil (h : scanNumber t = some r) : r.2.1 ≠ [] := by
  unfold scanNumber at h
  grind [scanBased_raw_ne_nil, scanDecimal_raw_ne_nil]

theorem symbol?_ne_nil {t s : Text} (h : symbol? t = some s) : s ≠ [] := by
  have hall : ∀ s ∈ symbols, s ≠ [] := by decide
  unfold symbol? at h
  split at h
  · split at h
    · cases h
      decide
    · exact hall s (List.mem_of_find?_eq_some h)
  · exact hall s (List.mem_of_find?_eq_some h)

/-- Of a token a character is written at least. -/
theorem scan_raw_ne_nil (h : (scan t).1.isSolid = true) : (scan t).2.1 ≠ [] := by
  unfold scan at h ⊢
  grind [isSolid, scanNumber_raw_ne_nil, scanName_raw_ne_nil, symbol?_ne_nil]

end Token

/-- A lexeme that ends no earlier than it begins, and later if it is written with some
    characters. -/
structure Lexeme.Sound (l : Lexeme) : Prop where
  le : l.start ≤ l.stop
  lt : l.token.isSolid = true → l.start < l.stop

theorem Lexeme.sound_next (offset : Nat) (t : Text) :
    (Lexeme.next offset t).Sound ∧ offset ≤ (Lexeme.next offset t).start := by
  unfold Lexeme.next
  split
  · exact ⟨⟨Nat.le_refl _, fun h => by cases h⟩, Nat.le_refl _⟩
  · next p here hgap =>
    refine ⟨⟨Nat.le_add_right _ _, fun h => ?_⟩, Token.offset_le_skipGap hgap⟩
    exact Nat.lt_add_of_pos_right (Text.byteLength_pos (Token.scan_raw_ne_nil h))

/-! ### The nodes in an answer -/

/-- Values with nodes in them. -/
class Carries (α : Type) where
  nodes : α → List Node

export Carries (nodes)

/-- Values without nodes. -/
class Bare (α : Type) [Carries α] : Prop where
  nodes_eq : ∀ a : α, nodes a = []

section Carries

variable {α β σ : Type}

instance (priority := low) Carries.none : Carries α := ⟨fun _ => []⟩

instance : Carries Node := ⟨fun n => [n]⟩

variable [Carries α] [Carries β] [Carries σ]

instance : Carries (List α) := ⟨fun as => as.flatMap nodes⟩

instance : Carries (Option α) := ⟨fun a => a.toList.flatMap nodes⟩

instance : Carries (α × β) := ⟨fun p => nodes p.1 ++ nodes p.2⟩

instance : Carries (Sum α β) := ⟨Sum.elim nodes nodes⟩

instance : Carries (Grammar.Parse.Step σ α) where
  nodes
    | .more s => nodes s
    | .done a => nodes a

instance Bare.none {γ : Type} : @Bare γ Carries.none := ⟨fun _ => rfl⟩

instance [Bare α] : Bare (List α) := ⟨fun as => by simp [nodes, Bare.nodes_eq]⟩

instance [Bare α] : Bare (Option α) := ⟨fun a => by simp [nodes, Bare.nodes_eq]⟩

instance [Bare α] [Bare β] : Bare (α × β) := ⟨fun p => by simp [nodes, Bare.nodes_eq]⟩

end Carries

/-- The region without any place. -/
def nowhere : Span → Prop := fun _ => False

/-- The nodes in a value are sound, and their returns are in a region. -/
class Within (r : Span → Prop) {α : Type} [Carries α] (a : α) : Prop where
  all : ∀ n ∈ nodes a, n.Sound ∧ ∀ s ∈ n.returns, r s


namespace Within

variable {r : Span → Prop} {α β σ : Type} [Carries α] [Carries β] [Carries σ] {a : α} {n : Node}
  {as : List α} {p : α × β}

theorem mono {q : Span → Prop} (h : Within q a) (hr : ∀ s, q s → r s) : Within r a :=
  ⟨fun n hn => ⟨(h.all n hn).1, fun s hs => hr s ((h.all n hn).2 s hs)⟩⟩

/-- What has no returns is within every region. -/
instance (priority := low) of_nowhere [Within nowhere a] : Within r a :=
  mono ‹Within nowhere a› fun _ h => h.elim

instance bare [Bare α] : Within r a :=
  ⟨fun n hn => by rw [Bare.nodes_eq] at hn; cases hn⟩

instance val {a : {a : α // Within r a}} : Within r a.1 := a.2

theorem of_node (h : n.Sound) (hr : ∀ s ∈ n.returns, r s) : Within r n :=
  ⟨fun m hm => by rw [List.mem_singleton.1 hm]; exact ⟨h, hr⟩⟩

theorem sound (h : Within r n) : n.Sound := (h.all n (List.mem_singleton.2 rfl)).1

theorem returns (h : Within r n) : ∀ s ∈ n.returns, r s :=
  (h.all n (List.mem_singleton.2 rfl)).2

/-- What is within a region stays there when it is taken out of a node. -/
theorem of_mem {k : Kind} {s : Span} {ps : List Node} {p : Node} (h : Within r (Node.mk k s ps))
    (hk : k.encloses = false) (hp : p ∈ ps) : Within r p :=
  of_node (h.sound.of_mem hp) fun t ht => h.returns t (Node.mem_returns_of_mem_parts hk hp ht)

theorem returns_eq_nil (h : Within nowhere n) : n.returns = [] :=
  List.eq_nil_iff_forall_not_mem.2 h.returns

theorem confined (h : Within nowhere n) : n.Sound ∧ n.Confined :=
  ⟨h.sound, .inr h.returns_eq_nil⟩

theorem list_iff : Within r as ↔ ∀ a ∈ as, Within r a := by
  constructor
  · intro h a ha
    exact ⟨fun n hn => h.all n (List.mem_flatMap.2 ⟨a, ha, hn⟩)⟩
  · intro h
    refine ⟨fun n hn => ?_⟩
    obtain ⟨a, ha, hn⟩ := List.mem_flatMap.1 hn
    exact (h a ha).all n hn

instance nil : Within r ([] : List α) := list_iff.2 fun _ h => absurd h List.not_mem_nil

instance cons [Within r a] [Within r as] : Within r (a :: as) :=
  list_iff.2 (List.forall_mem_cons.2 ⟨‹_›, list_iff.1 ‹_›⟩)

instance append {as bs : List α} [Within r as] [Within r bs] : Within r (as ++ bs) :=
  list_iff.2 (List.forall_mem_append.2 ⟨list_iff.1 ‹_›, list_iff.1 ‹_›⟩)

instance reverse [Within r as] : Within r as.reverse :=
  list_iff.2 fun a ha => list_iff.1 ‹Within r as› a (List.mem_reverse.1 ha)

instance none : Within r (none : Option α) := ⟨fun _ hn => absurd hn List.not_mem_nil⟩

theorem some_iff : Within r (some a) ↔ Within r a := by
  have h : nodes (some a) = nodes a := List.append_nil _
  exact ⟨fun hw => ⟨h ▸ hw.all⟩, fun hw => ⟨h.symm ▸ hw.all⟩⟩

instance some [Within r a] : Within r (some a) := some_iff.2 ‹_›

instance ite {b : Prop} [Decidable b] {x y : α} [Within r x] [Within r y] :
    Within r (if b then x else y) := by
  split <;> assumption

instance toList {a : Option α} [Within r a] : Within r a.toList :=
  ⟨(‹Within r a› : Within r a).all⟩

instance getD {a : Option α} {b : α} [Within r a] [Within r b] : Within r (a.getD b) := by
  cases a with
  | none => assumption
  | some a => exact some_iff.1 ‹_›

theorem pair_iff : Within r p ↔ Within r p.1 ∧ Within r p.2 := by
  constructor
  · intro h
    exact ⟨⟨fun n hn => h.all n (List.mem_append_left _ hn)⟩,
      ⟨fun n hn => h.all n (List.mem_append_right _ hn)⟩⟩
  · rintro ⟨h₁, h₂⟩
    exact ⟨fun n hn => (List.mem_append.1 hn).elim (h₁.all n) (h₂.all n)⟩

instance pair {b : β} [Within r a] [Within r b] : Within r (a, b) := pair_iff.2 ⟨‹_›, ‹_›⟩

instance fst [Within r p] : Within r p.1 := (pair_iff.1 ‹_›).1

instance snd [Within r p] : Within r p.2 := (pair_iff.1 ‹_›).2

instance inl [Within r a] : Within r (.inl a : Sum α β) := ⟨(‹Within r a› : Within r a).all⟩

instance inr {b : β} [Within r b] : Within r (.inr b : Sum α β) := ⟨(‹Within r b› : Within r b).all⟩

instance more {s : σ} [Within r s] : Within r (.more s : Grammar.Parse.Step σ α) :=
  ⟨(‹Within r s› : Within r s).all⟩

instance done [Within r a] : Within r (.done a : Grammar.Parse.Step σ α) :=
  ⟨(‹Within r a› : Within r a).all⟩

end Within

/-- A truth value that is found to be false by evaluation. -/
class Off (b : Bool) : Prop where
  eq : b = false

instance : Off false := ⟨rfl⟩

namespace Within

variable {r : Span → Prop} {k : Kind} {s : Span} {ps : List Node}

instance node [hk : Off k.isReturning] [hps : Within r ps] : Within r (Node.mk k s ps) := by
  have hparts : ∀ p ∈ ps, Within r p := list_iff.1 hps
  refine of_node (.of_parts hk.eq fun p hp => (hparts p hp).sound) fun t ht => ?_
  have hne : k ≠ .returnStatement := by
    rintro rfl
    cases hk.eq
  obtain ⟨p, hp, ht⟩ := Node.mem_parts_of_mem_returns hne ht
  exact (hparts p hp).returns t ht

instance absent : Within r Node.absent := inferInstanceAs (Within r (Node.mk .absent Span.zero []))

/-- A function keeps its returns to itself. -/
theorem of_confined (hk : k.isFunctional = true) (h : ∀ p ∈ ps, p.Sound ∧ p.Confined) :
    Within r (Node.mk k s ps) := by
  have hencloses : k.encloses = true := by
    cases k <;> first | rfl | cases hk
  refine of_node (.of_confined hk h) ?_
  rw [Node.returns_of_encloses hencloses]
  exact fun _ h => absurd h List.not_mem_nil

end Within

namespace Grammar

/-- A region has every return that can begin between two cursors. -/
def Admits (r : Span → Prop) (ctx : Context) (c d : Cursor) : Prop :=
  ctx.returnAllowed = true → ∀ s : Span, c.start ≤ s.start → s.start < d.start → r s

namespace Admits

variable {r : Span → Prop} {ctx : Context} {c d e : Cursor}

theorem left (h : Admits r ctx c d) (he : e.start ≤ d.start) : Admits r ctx c e :=
  fun hr s hs hse => h hr s hs (Nat.lt_of_lt_of_le hse he)

theorem right (h : Admits r ctx c d) (he : c.start ≤ e.start) : Admits r ctx e d :=
  fun hr s hs hsd => h hr s (Nat.le_trans he hs) hsd

end Admits

namespace Parse

variable {α β σ : Type}

/-! ### What parsers answer -/

section Runs

variable {p q : Parse α} {ctx : Context} {c d : Cursor} {a : α} {b : β}

theorem run_bind (ctx : Context) (c : Cursor) (p : Parse α) (f : α → Parse β) :
    (p >>= f) ctx c = (p ctx c).1.elim (none, (p ctx c).2) fun a => f a ctx (p ctx c).2 := by
  show (OptionT.bind (p ctx) fun a => f a ctx) c = _
  unfold OptionT.bind OptionT.mk
  simp only [bind, StateT.bind]
  rcases p ctx c with ⟨_ | a, e⟩ <;> rfl

theorem bind_eq_some {f : α → Parse β} :
    (p >>= f) ctx c = (some b, d) ↔ ∃ a e, p ctx c = (some a, e) ∧ f a ctx e = (some b, d) := by
  rw [run_bind]
  rcases p ctx c with ⟨_ | a, e⟩
  · constructor
    · intro h
      cases h
    · rintro ⟨a, e', h, -⟩
      cases h
  · constructor
    · intro h
      exact ⟨a, e, rfl, h⟩
    · rintro ⟨a', e', h, h'⟩
      cases h
      exact h'

theorem pure_eq_some {a' : α} : (pure a' : Parse α) ctx c = (some a, d) ↔ a' = a ∧ c = d := by
  constructor
  · intro h
    cases h
    exact ⟨rfl, rfl⟩
  · rintro ⟨rfl, rfl⟩
    rfl

theorem attempt_eq_some {o : Option α} (h : attempt p ctx c = (some o, d)) :
    (∃ a, o = some a ∧ p ctx c = (some a, d)) ∨
      o = none ∧ ∃ ns, d = { c with noArrows := ns } := by
  unfold attempt at h
  split at h
  · next a d' hp =>
    cases h
    exact .inl ⟨a, rfl, hp⟩
  · cases h
    exact .inr ⟨rfl, _, rfl⟩

theorem lookahead_eq_some {p : Parse Bool} {b : Bool} (h : lookahead p ctx c = (some b, d)) :
    ∃ ns, d = { c with noArrows := ns } := by
  unfold lookahead at h
  split at h <;> cases h <;> exact ⟨_, rfl⟩

theorem iterate_eq_some {step : σ → Parse (Step σ α)} {n : Nat} {s : σ}
    (h : iterate step n s ctx c = (some a, d)) : ∃ e, step s ctx c = (some (.done a), d) ∨
      ∃ m t, n = m + 1 ∧ step s ctx c = (some (.more t), e) ∧ iterate step m t ctx e = (some a, d) := by
  cases n with
  | zero => cases h
  | succ n =>
    obtain ⟨x, e, hx, h⟩ := bind_eq_some.1 h
    cases x with
    | more t => exact ⟨e, .inr ⟨n, t, rfl, hx, h⟩⟩
    | done a' =>
      obtain ⟨rfl, rfl⟩ := pure_eq_some.1 h
      exact ⟨e, .inl hx⟩

/-- What is so after a step of a loop: `I` as long as there are more, and then
    `Q` of the result. -/
def Step.Leaves (I : σ → Cursor → Prop) (Q : α → Cursor → Prop) : Step σ α → Cursor → Prop
  | .more s, c => I s c
  | .done a, c => Q a c

/-- What every step of a loop keeps holds until the last one. -/
theorem iterate_induction {step : σ → Parse (Step σ α)} (I : σ → Cursor → Prop)
    {Q : α → Cursor → Prop}
    (hstep : ∀ s c x e, I s c → step s ctx c = (some x, e) → x.Leaves I Q e) {n : Nat} {s : σ}
    (hs : I s c) (h : iterate step n s ctx c = (some a, d)) : Q a d := by
  induction n generalizing s c with
  | zero => cases h
  | succ n ih =>
    obtain ⟨e, h | ⟨m, t, hm, ht, h⟩⟩ := iterate_eq_some h
    · exact hstep s c _ d hs h
    · obtain rfl := Nat.succ.inj hm
      exact ih (hstep s c _ e hs ht) h

end Runs

/-- A parser that never goes back. -/
class Forward (p : Parse α) : Prop where
  forward : ∀ {ctx c a d}, c.toLexeme.Sound → p ctx c = (some a, d) →
    d.toLexeme.Sound ∧ c.start ≤ d.start

/-- A parser that never goes back and whose answers have no returns. -/
class Calm [Carries α] (p : Parse α) : Prop extends Forward p where
  calm : ∀ {ctx c a d}, c.toLexeme.Sound → p ctx c = (some a, d) → Within nowhere a

/-- A parser whose answers have returns in a region only, if the region has all
    that can begin while it reads. -/
class Gives (r : Span → Prop) [Carries α] (p : Parse α) : Prop where
  gives : ∀ {ctx c a d}, c.toLexeme.Sound → p ctx c = (some a, d) → Admits r ctx c d → Within r a

namespace Forward

variable {p q : Parse α} {f : α → Parse β} {step : σ → Parse (Step σ α)}

/-- To go on, a parser may rely on what it is given. -/
theorem bindWith {P : α → Prop} (hp : Forward p)
    (hP : ∀ {ctx c a d}, c.toLexeme.Sound → p ctx c = (some a, d) → P a)
    (hf : ∀ a, P a → Forward (f a)) : Forward (p >>= f) where
  forward hc h := by
    obtain ⟨a, e, ha, hb⟩ := bind_eq_some.1 h
    obtain ⟨he, hce⟩ := hp.forward hc ha
    obtain ⟨hd, hed⟩ := (hf a (hP hc ha)).forward he hb
    exact ⟨hd, Nat.le_trans hce hed⟩

theorem bind' (hp : Forward p) (hf : ∀ a, Forward (f a)) : Forward (p >>= f) :=
  bindWith hp (fun _ _ => trivial) fun a _ => hf a

instance bind [hp : Forward p] [hf : ∀ a, Forward (f a)] : Forward (p >>= f) := bind' hp hf

-- A match on what has been read is followed where its cases are known.
instance bindPair {p : Parse (σ × α)} {f : σ × α → Parse β} [hp : Forward p]
    [hf : ∀ s a, Forward (f (s, a))] : Forward (p >>= f) :=
  bind' hp fun x => hf x.1 x.2

instance bindOption {p : Parse (Option α)} {f : Option α → Parse β} [hp : Forward p]
    [hnone : Forward (f none)] [hsome : ∀ a, Forward (f (some a))] : Forward (p >>= f) := by
  refine bind' hp fun a => ?_
  cases a with
  | none => exact hnone
  | some a => exact hsome a

instance pure {a : α} : Forward (pure a : Parse α) where
  forward hc h := by
    obtain ⟨-, rfl⟩ := pure_eq_some.1 h
    exact ⟨hc, Nat.le_refl _⟩

instance fail : Forward (fail : Parse α) where
  forward _ h := by cases h

instance ite {b : Prop} [Decidable b] [hp : Forward p] [hq : Forward q] :
    Forward (if b then p else q) := by
  split <;> assumption

instance get : Forward (get : Parse Cursor) where
  forward hc h := by
    cases h
    exact ⟨hc, Nat.le_refl _⟩

instance read : Forward (read : Parse Context) where
  forward hc h := by
    cases h
    exact ⟨hc, Nat.le_refl _⟩

instance attempt [hp : Forward p] : Forward (attempt p) where
  forward hc h := by
    rcases attempt_eq_some h with ⟨a, -, h⟩ | ⟨-, ns, rfl⟩
    · exact hp.forward hc h
    · exact ⟨hc, Nat.le_refl _⟩

instance lookahead {p : Parse Bool} : Forward (lookahead p) where
  forward hc h := by
    obtain ⟨ns, rfl⟩ := lookahead_eq_some h
    exact ⟨hc, Nat.le_refl _⟩

instance within {g : Context → Context} [hp : Forward p] : Forward (within g p) where
  forward hc h := hp.forward hc h

instance withIn [hp : Forward p] : Forward (withIn p) := inferInstanceAs (Forward (Parse.within _ p))

instance iterate [hf : ∀ s, Forward (step s)] (n : Nat) (s : σ) : Forward (iterate step n s) := by
  induction n generalizing s with
  | zero => exact Forward.fail
  | succ n ih =>
    refine bind' (hf s) fun x => ?_
    cases x with
    | more t => exact ih t
    | done a => exact Forward.pure

instance loop {s : σ} [∀ s, Forward (step s)] :
    Forward (loop s step) := inferInstanceAs (Forward (_ >>= fun _ => _))

theorem loop' {s : σ} (_ : ∀ s, Forward (step s)) :
    Forward (Parse.loop s step) := inferInstance

end Forward

namespace Calm

variable [Carries α] [Carries β] [Carries σ] {p q : Parse α} {f : α → Parse β}
  {step : σ → Parse (Step σ α)} {s : σ}

omit [Carries α] in
/-- What a parser is given may have returns that it does not answer. -/
theorem bindWith {P : α → Prop} (hp : Forward p)
    (hP : ∀ {ctx c a d}, c.toLexeme.Sound → p ctx c = (some a, d) → P a)
    (hf : ∀ a, P a → Calm (f a)) : Calm (p >>= f) where
  toForward := .bindWith hp hP fun a ha => (hf a ha).toForward
  calm hc h := by
    obtain ⟨a, e, ha, hb⟩ := bind_eq_some.1 h
    exact (hf a (hP hc ha)).calm (hp.forward hc ha).1 hb

theorem bind' (hp : Calm p) (hf : ∀ a, Within nowhere a → Calm (f a)) : Calm (p >>= f) :=
  bindWith hp.toForward hp.calm hf

instance bind [hp : Calm p] [hf : ∀ a : {a : α // Within nowhere a}, Calm (f a.1)] :
    Calm (p >>= f) :=
  bind' hp fun a ha => hf ⟨a, ha⟩

-- A match on what has been read is followed where its cases are known.
instance bindPair {p : Parse (σ × α)} {f : σ × α → Parse β} [hp : Calm p]
    [hf : ∀ (s : {s : σ // Within nowhere s}) (a : {a : α // Within nowhere a}),
      Calm (f (s.1, a.1))] : Calm (p >>= f) :=
  bind' hp fun x hx => hf ⟨x.1, (Within.pair_iff.1 hx).1⟩ ⟨x.2, (Within.pair_iff.1 hx).2⟩

instance bindTriple {τ : Type} [Carries τ] {p : Parse (σ × τ × α)} {f : σ × τ × α → Parse β}
    [hp : Calm p] [hf : ∀ (s : {s : σ // Within nowhere s}) (t : {t : τ // Within nowhere t})
      (a : {a : α // Within nowhere a}), Calm (f (s.1, t.1, a.1))] : Calm (p >>= f) := by
  refine bind' hp fun x hx => ?_
  obtain ⟨hs, hx⟩ := Within.pair_iff.1 hx
  obtain ⟨ht, ha⟩ := Within.pair_iff.1 hx
  exact hf ⟨x.1, hs⟩ ⟨x.2.1, ht⟩ ⟨x.2.2, ha⟩

instance bindOption {p : Parse (Option α)} {f : Option α → Parse β} [hp : Calm p]
    [hnone : Calm (f none)] [hsome : ∀ a : {a : α // Within nowhere a}, Calm (f (some a.1))] :
    Calm (p >>= f) := by
  refine bind' hp fun a ha => ?_
  cases a with
  | none => exact hnone
  | some a => exact hsome ⟨a, Within.some_iff.1 ha⟩

instance pure {a : α} [ha : Within nowhere a] : Calm (pure a : Parse α) where
  calm _ h := (pure_eq_some.1 h).1 ▸ ha

instance fail : Calm (fail : Parse α) where
  calm _ h := by cases h

instance pureBind {a : α} [hf : Calm (f a)] : Calm (Pure.pure a >>= f) :=
  bindWith Forward.pure (fun _ h => (pure_eq_some.1 h).1) fun _ h => h ▸ hf

instance failBind : Calm (Parse.fail >>= f) where
  forward _ h := by cases h
  calm _ h := by cases h

instance ite {b : Prop} [Decidable b] [hp : Calm p] [hq : Calm q] : Calm (if b then p else q) := by
  split <;> assumption

theorem bare' [Bare α] (_ : Forward p) : Calm p where
  calm _ _ := inferInstance

/-- A parser that answers no nodes is calm if it never goes back. -/
instance (priority := low) bare [Bare α] [hp : Forward p] : Calm p := bare' hp

instance attempt [hp : Calm p] : Calm (attempt p) where
  calm hc h := by
    rcases attempt_eq_some h with ⟨a, rfl, ha⟩ | ⟨rfl, -⟩
    · exact Within.some_iff.2 (hp.calm hc ha)
    · exact inferInstance

instance within {g : Context → Context} [hp : Calm p] : Calm (within g p) where
  calm hc h := hp.calm hc h

instance withIn [hp : Calm p] : Calm (withIn p) := inferInstanceAs (Calm (Parse.within _ p))

/-- Where no return can begin there is none. -/
theorem within_barred {g : Context → Context} (hg : ∀ ctx, (g ctx).returnAllowed = false)
    [hp : Forward p] [hgp : Gives nowhere p] : Calm (Parse.within g p) where
  forward hc h := hp.forward hc h
  calm hc h := hgp.gives hc h fun hret => by rw [hg] at hret; cases hret

theorem iterate (hf : ∀ s, Within nowhere s → Calm (step s))
    (n : Nat) (hs : Within nowhere s) : Calm (iterate step n s) := by
  induction n generalizing s with
  | zero => exact Calm.fail
  | succ n ih =>
    refine bind' (hf s hs) fun x hx => ?_
    cases x with
    | more t => exact ih ⟨hx.all⟩
    | done a =>
      have : Within nowhere a := ⟨hx.all⟩
      exact Calm.pure

theorem loop' (hs : Within nowhere s)
    (hf : ∀ s, Within nowhere s → Calm (step s)) : Calm (loop s step) :=
  bind' inferInstance fun _ _ => iterate hf _ hs

instance loop [hs : Within nowhere s]
    [hf : ∀ s : {s : σ // Within nowhere s}, Calm (step s.1)] : Calm (loop s step) :=
  loop' hs fun t ht => hf ⟨t, ht⟩

end Calm

namespace Gives

variable {r : Span → Prop} [Carries α] [Carries β] [Carries σ] {p q : Parse α} {f : α → Parse β}
  {step : σ → Parse (Step σ α)} {s : σ}

theorem bind' (hp : Forward p) (hf : ∀ a, Forward (f a)) (hgp : Gives r p)
    (hgf : ∀ a, Within r a → Gives r (f a)) : Gives r (p >>= f) where
  gives hc h hr := by
    obtain ⟨a, e, ha, hb⟩ := bind_eq_some.1 h
    obtain ⟨he, hce⟩ := hp.forward hc ha
    obtain ⟨-, hed⟩ := (hf a).forward he hb
    exact (hgf a (hgp.gives hc ha (hr.left hed))).gives he hb (hr.right hce)

instance bind [hp : Forward p] [hf : ∀ a, Forward (f a)] [hgp : Gives r p]
    [hgf : ∀ a : {a : α // Within r a}, Gives r (f a.1)] : Gives r (p >>= f) :=
  bind' hp hf hgp fun a ha => hgf ⟨a, ha⟩

/-- What has no returns does not matter for where the others are. -/
theorem bindCalm (hp : Calm p) (hf : ∀ a, Within nowhere a → Gives r (f a)) :
    Gives r (p >>= f) where
  gives hc h hr := by
    obtain ⟨a, e, ha, hb⟩ := bind_eq_some.1 h
    obtain ⟨he, hce⟩ := hp.forward hc ha
    exact (hf a (hp.calm hc ha)).gives he hb (hr.right hce)

-- A match on what has been read is followed where its cases are known.
instance bindPair {p : Parse (σ × α)} {f : σ × α → Parse β} [hp : Forward p]
    [hf : ∀ s a, Forward (f (s, a))] [hgp : Gives r p]
    [hgf : ∀ (s : {s : σ // Within r s}) (a : {a : α // Within r a}), Gives r (f (s.1, a.1))] :
    Gives r (p >>= f) :=
  bind' hp (fun x => hf x.1 x.2) hgp fun x hx =>
    hgf ⟨x.1, (Within.pair_iff.1 hx).1⟩ ⟨x.2, (Within.pair_iff.1 hx).2⟩

theorem bindOption' {p : Parse (Option α)} {f : Option α → Parse β} (hp : Forward p)
    (hf : ∀ a, Forward (f (some a))) (hgp : Gives r p) (hnone : Gives r (f none))
    (hsome : ∀ a, Within r a → Gives r (f (some a))) : Gives r (p >>= f) where
  gives hc h hr := by
    obtain ⟨a, e, ha, hb⟩ := bind_eq_some.1 h
    obtain ⟨he, hce⟩ := hp.forward hc ha
    cases a with
    | none => exact hnone.gives he hb (hr.right hce)
    | some a =>
      obtain ⟨-, hed⟩ := (hf a).forward he hb
      have hwithin := Within.some_iff.1 (hgp.gives hc ha (hr.left hed))
      exact (hsome a hwithin).gives he hb (hr.right hce)

instance bindOption {p : Parse (Option α)} {f : Option α → Parse β} [hp : Forward p]
    [hf : ∀ a, Forward (f (some a))] [hgp : Gives r p] [hnone : Gives r (f none)]
    [hsome : ∀ a : {a : α // Within r a}, Gives r (f (some a.1))] : Gives r (p >>= f) :=
  bindOption' hp hf hgp hnone fun a ha => hsome ⟨a, ha⟩

instance pure {a : α} [ha : Within r a] : Gives r (pure a : Parse α) where
  gives _ h _ := (pure_eq_some.1 h).1 ▸ ha

instance ite {b : Prop} [Decidable b] [hp : Gives r p] [hq : Gives r q] :
    Gives r (if b then p else q) := by
  split <;> assumption

theorem of_calm' (hp : Calm p) : Gives r p where
  gives hc h _ := (hp.calm hc h).mono fun _ h => h.elim

/-- What has no returns is in every region. -/
instance (priority := low) of_calm [hp : Calm p] : Gives r p := of_calm' hp

theorem iterate [hstep : ∀ s, Forward (step s)]
    (hf : ∀ s, Within r s → Gives r (step s)) (n : Nat) (hs : Within r s) :
    Gives r (iterate step n s) := by
  induction n generalizing s with
  | zero => exact of_calm' Calm.fail
  | succ n ih =>
    refine bind' (hstep s) (fun x => ?_) (hf s hs) fun x hx => ?_
    · cases x <;> exact inferInstance
    · cases x with
      | more t => exact ih ⟨hx.all⟩
      | done a =>
        have : Within r a := ⟨hx.all⟩
        exact Gives.pure

theorem loop' (hstep : ∀ s, Forward (step s))
    (hs : Within r s) (hf : ∀ s, Within r s → Gives r (step s)) : Gives r (loop s step) :=
  bind' inferInstance inferInstance inferInstance fun _ _ => iterate hf _ hs

instance loop [hstep : ∀ s, Forward (step s)]
    [hs : Within r s] [hf : ∀ s : {s : σ // Within r s}, Gives r (step s.1)] :
    Gives r (loop s step) :=
  loop' hstep hs fun t ht => hf ⟨t, ht⟩

/-- A changed context matters only by whether it has returns. -/
theorem within {g : Context → Context} [hp : Gives r p]
    (hg : ∀ ctx, (g ctx).returnAllowed = true → ctx.returnAllowed = true) :
    Gives r (within g p) where
  gives hc h hr := hp.gives hc h fun hret => hr (hg _ hret)

end Gives

/-! ### Reading tokens -/

instance : Forward token := by unfold token; infer_instance

instance : Forward start := by unfold start; infer_instance

instance : Forward newline := by unfold newline; infer_instance

instance {s : Nat} : Forward (spanFrom s) := by unfold spanFrom; infer_instance

instance : Forward peek := by unfold peek; infer_instance

instance : Forward typed := by unfold typed; infer_instance

theorem check_eq_some {b : Bool} {ctx : Context} {c d : Cursor} {u : Unit}
    (h : check b ctx c = (some u, d)) : b = true ∧ d = c := by
  cases b <;> cases h
  exact ⟨rfl, rfl⟩

instance {b : Bool} : Forward (check b) := by unfold check; infer_instance

instance {s : Text} : Forward (isPunct s) := by unfold isPunct; infer_instance

instance {s : Text} : Forward (isWord s) := by unfold isWord; infer_instance

instance {d : Char} : Forward (isChar d) := by unfold isChar; infer_instance

section Node

variable {k : Kind} {s : Nat} {ps : List Node}

theorem node_eq_some {ctx : Context} {c d : Cursor} {n : Node}
    (h : node k s ps ctx c = (some n, d)) : n = .mk k ⟨s, c.lastStop⟩ ps ∧ d = c := by
  cases h
  exact ⟨rfl, rfl⟩

instance : Forward (node k s ps) := by unfold node; infer_instance

instance [Off k.isReturning] [Within nowhere ps] : Calm (node k s ps) := by
  unfold node; infer_instance

instance {r : Span → Prop} [Off k.isReturning] [Within r ps] : Gives r (node k s ps) := by
  unfold node; infer_instance

/-- A function keeps its returns to itself. -/
theorem calm_node_of_confined (hk : k.isFunctional = true)
    (h : ∀ p ∈ ps, p.Sound ∧ p.Confined) : Calm (node k s ps) where
  calm _ h' := by
    obtain ⟨rfl, -⟩ := node_eq_some h'
    exact .of_confined hk h

end Node

variable {s : Text}

/-- Moving on leaves the token behind. -/
theorem advance_eq_some {ctx : Context} {c d : Cursor} {u : Unit}
    (h : advance ctx c = (some u, d)) : d.toLexeme.Sound ∧ c.stop ≤ d.start := by
  cases h
  exact Lexeme.sound_next c.stop c.rest

instance : Forward advance where
  forward hc h := by
    obtain ⟨hd, hle⟩ := advance_eq_some h
    exact ⟨hd, Nat.le_trans hc.le hle⟩

instance : Forward advanceChar where
  forward {ctx c u d} hc h := by
    obtain ⟨c', e, hget, h⟩ := bind_eq_some.1 h
    cases hget
    cases hhere : c.here with
    | nil =>
      rw [hhere] at h
      cases h
    | cons x t =>
      rw [hhere] at h
      cases h
      obtain ⟨hd, hle⟩ := Lexeme.sound_next (c.start + x.utf8Size) t
      exact ⟨hd, Nat.le_trans (Nat.le_add_right _ _) hle⟩

instance : Forward (eat s) := by unfold eat; infer_instance

instance : Forward (eatWord s) := by unfold eatWord; infer_instance

instance : Forward (expect s) := by unfold expect; infer_instance

instance : Forward (expectWord s) := by unfold expectWord; infer_instance

instance : Forward semicolon := by unfold semicolon; infer_instance

/-- Taking note of what is behind moves nothing. -/
theorem forward_modify {g : Cursor → Cursor} (hg : ∀ c, (g c).toLexeme = c.toLexeme) :
    Forward (modify g : Parse Unit) where
  forward hc h := by
    cases h
    show (g _).toLexeme.Sound ∧ _ ≤ (g _).toLexeme.start
    rw [hg]
    exact ⟨hc, Nat.le_refl _⟩

instance {s : Nat} {close : Text} : Forward (noteTrailing s close) := by
  have : Forward (modify fun c => { c with trailing := s :: c.trailing } : Parse Unit) :=
    forward_modify fun _ => rfl
  unfold noteTrailing
  infer_instance

instance : Forward string := by
  refine Forward.bind' inferInstance fun t => ?_
  split <;> infer_instance

instance : Forward nameHere? := by
  refine Forward.bind' inferInstance fun t => ?_
  split <;> infer_instance

instance : Forward name := by
  refine Forward.bind' inferInstance fun n => ?_
  split <;> infer_instance

instance : Forward word := by
  refine Forward.bind' inferInstance fun t => ?_
  split <;> infer_instance

section Lists

-- The search goes through every parser within a rule.
set_option synthInstance.maxSize 1000

variable {item : Parse Node} {sep close : Text} {r : Span → Prop}

instance [Forward item] : Forward (until_ close item) := by unfold until_; infer_instance

instance [Calm item] : Calm (until_ close item) := by unfold until_; infer_instance

instance [Forward item] [Gives r item] : Gives r (until_ close item) := by
  unfold until_; infer_instance

instance [Calm item] : Calm (commaUntil close item) := by unfold commaUntil; infer_instance

instance [Calm item] : Calm (separated sep item) := by unfold separated; infer_instance

end Lists

end Parse

end Grammar

end Unhook
