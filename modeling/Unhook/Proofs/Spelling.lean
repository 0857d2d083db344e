import Unhook.Printer.Basic
import Unhook.Proofs.Mark
import Unhook.Proofs.Tree

/-!
# What trees spell

A node is written with the texts of its parts, with signs and keywords, and with
texts of its own: a name, a number, what stands between quotes or tags. These are its
*spellings*, and a placeholder in a tree is one in a spelling of some node.

When a tree is written no placeholder comes up where two texts meet, as hardly any
two texts meet without a sign between them. Where they do, one of them begins or ends
with a sign: type arguments, decorators and tags do. Trees that are built in this way
are *separated*.

* `Kind.spellings`: the texts that a node of a kind is itself written with;
* `Node.marks`: the placeholders in a tree;
* `Node.isSeparated`: whether signs stand between the texts of a tree.
-/

namespace Unhook

open Printer Block

namespace Kind

/-- The texts that a node of a kind is itself written with. What is written of modules
    that are imported or exported is taken as one text. -/
def spellings : Kind → List Text
  | .identifier n | .target n | .binding n | .word n | .privateName n | .numeral n | .bigint n
  | .member _ n | .privateMember _ n | .tag n | .tagRef n | .tagMember n | .attributeString n
  | .markupText n | .directive n | .labeled n | .typeWord n | .typeName n | .qualified n
  | .typeParameter _ n | .markedType n _ | .typeOperator n | .predicate _ n
  | .indexSignature _ n | .typeAlias _ n | .interface n | .importEquals n
  | .exportNamespace n => [n]
  | .number v => [v.written]
  | .string v halves => [Quoted.single v halves]
  | .regex pattern flags => [pattern, flags]
  | .template ts => ts.map Quoted.keepScript
  | .templateType ts => ts
  | .importCall phase => phase.toList
  | .tagNamespaced space n => [space, n]
  | .attribute space n => space.toList ++ [n]
  | .breakStatement label | .continueStatement label | .tupleMember label _ _ => label.toList
  | .importDeclaration typeOnly clause source =>
    [statement (.importDeclaration typeOnly clause source) [] {}]
  | .exportList typeOnly entries source => [statement (.exportList typeOnly entries source) [] {}]
  | .exportAll typeOnly n source => [statement (.exportAll typeOnly n source) [] {}]
  | .mappedType n readonly_ optional => readonly_.toList ++ n :: optional.toList
  | .propertySignature form => form.modifiers
  | .enum mods n | .namespace_ mods n => mods ++ [n]
  | _ => []

/-- Whether what a node of a kind is written with is between two signs. -/
def isEnclosed : Kind → Bool
  | .element | .fragment | .closing | .container | .spreadChild => true
  | _ => false

/-- Whether what a node of a kind is written with begins with a sign, if it is not
    empty. -/
def opensApart (k : Kind) : Bool :=
  k.isEnclosed || match k with
    | .absent | .typeArguments | .typeParameters | .template _ | .opening => true
    | _ => false

/-- Whether what a node of a kind is written with ends with a sign, if it is not empty. -/
def endsApart (k : Kind) : Bool :=
  k.isEnclosed || match k with
    | .absent | .decorators => true
    | _ => false

/-- Whether of each two that come one after the other one is between signs. -/
def apart : List Kind → Bool
  | a :: b :: ks => (a.isEnclosed || b.isEnclosed) && apart (b :: ks)
  | _ => true

/-- Whether signs stand between the parts of a node of a kind, and between the parts and
    the spellings. -/
def separates : Kind → List Kind → Bool
  | .call _ _, _ :: ts :: _ | .new _, _ :: ts :: _ | .instantiation, [_, ts]
  | .function _, [_, ts, _, _, _] | .typeReference, [_, ts] | .typeQuery, [_, ts]
  | .importType, [_, _, _, ts] | .methodSignature _, [_, ts, _, _] | .typeAlias _ _, [ts, _]
  | .interface _, [ts, _, _] => ts.opensApart
  | .taggedTemplate, [_, ts, t] => ts.opensApart && t.opensApart
  | .class _, [_, _, ts, _, args, _, _] => ts.opensApart && args.opensApart
  | .param _ _, ds :: _ | .method _, ds :: _ | .field _, ds :: _ => ds.endsApart
  | .template texts, ks | .templateType texts, ks => texts.length ≤ ks.length + 1
  | .markedType sign _, _ => !sign.any inMark
  | .closing, ks | .container, ks | .spreadChild, ks => ks.length = 1
  | .element, ks =>
    ks.head?.any opensApart && ks.tail.getLast?.any (fun c => c.opensApart && c.endsApart) &&
      apart ks.tail.dropLast
  | .fragment, ks => apart ks
  | _, _ => true

end Kind

namespace Node

mutual

/-- The numbers of the placeholders in a tree. -/
def marks : Node → List Nat
  | mk k _ ps => k.spellings.flatMap Block.marks ++ marksList ps

/-- The numbers of the placeholders in some trees. -/
def marksList : List Node → List Nat
  | [] => []
  | n :: ns => marks n ++ marksList ns

end

/-- Whether signs stand between the texts that a tree is written with. -/
def isSeparated (n : Node) : Bool := !n.any fun m => !m.kind.separates (m.parts.map kind)

end Node

/-! ### Counting placeholders -/

/-- How often a placeholder stands in some texts. -/
def Block.tallies (i : Nat) (ts : List Text) : Nat := (ts.flatMap Block.marks).count i

/-- How often a placeholder stands in the spellings of a kind. -/
def Kind.load (i : Nat) (k : Kind) : Nat := tallies i k.spellings

namespace Node

/-- How often a placeholder stands in a tree. -/
def load (i : Nat) (n : Node) : Nat := n.marks.count i

/-- How often a placeholder stands in some trees. -/
def loads (i : Nat) (ns : List Node) : Nat := (marksList ns).count i

end Node

variable {i : Nat}

namespace Block

@[simp] theorem tallies_nil : tallies i [] = 0 := rfl

@[simp] theorem tallies_cons (t : Text) (ts : List Text) :
    tallies i (t :: ts) = tally i t + tallies i ts := by
  rw [tallies, List.flatMap_cons, List.count_append, tally, tallies]

@[simp] theorem tallies_append (ts us : List Text) :
    tallies i (ts ++ us) = tallies i ts + tallies i us := by
  rw [tallies, List.flatMap_append, List.count_append, tallies, tallies]

/-- Texts with a clear separator between them have the placeholders of each. -/
theorem tally_join {s : Text} (hclear : Clear s) (hne : s ≠ []) (hs : '_' ∉ s)
    (ts : List Text) : tally i (Text.join s ts) = tallies i ts := by
  rw [tally, marks_join hclear hne hs, tallies]

/-- Texts that are clear have, one after the other, the placeholders of each. -/
theorem tally_flatten {ts : List Text} (h : ∀ t ∈ ts, Clear t) :
    tally i ts.flatten = tallies i ts := by
  rw [tally, (marks_flatten h).2, tallies]

end Block

namespace Node

theorem load_mk (k : Kind) (s : Span) (ps : List Node) :
    (mk k s ps).load i = k.load i + loads i ps := by
  rw [load, marks, List.count_append]
  rfl

@[simp] theorem loads_nil : loads i [] = 0 := rfl

@[simp] theorem loads_cons (n : Node) (ns : List Node) :
    loads i (n :: ns) = n.load i + loads i ns := by
  rw [loads, marksList, List.count_append]
  rfl

theorem marksList_append (ns ms : List Node) :
    marksList (ns ++ ms) = marksList ns ++ marksList ms := by
  induction ns with
  | nil => rfl
  | cons n ns ih => rw [List.cons_append, marksList, marksList, ih, List.append_assoc]

theorem marksList_singleton (n : Node) : marksList [n] = n.marks := List.append_nil _

theorem loads_append (ns ms : List Node) : loads i (ns ++ ms) = loads i ns + loads i ms := by
  rw [loads, marksList_append, List.count_append, loads, loads]

theorem isSeparated_mk {k : Kind} {s : Span} {ps : List Node} :
    (mk k s ps).isSeparated = true ↔
      k.separates (ps.map kind) = true ∧ ∀ p ∈ ps, p.isSeparated = true := by
  simp only [isSeparated, any_mk, anyList_eq, Bool.not_or, Bool.and_eq_true, Bool.not_not,
    Bool.not_eq_true', List.any_eq_false, kind_mk, parts_mk, Bool.not_eq_true]

end Node

end Unhook
