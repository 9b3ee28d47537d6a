import ScriptAnalysis.Proofs.Ast.NodeMaps
import ScriptAnalysis.Proofs.Decimal.Reading
import ScriptAnalysis.Proofs.Semantics.Relays
import ScriptAnalysis.Proofs.Syntax.Literals

/-!
# The values of numbers

A text can write a number in base ten or in base sixteen, and one reader of decimals gives the number its value
in the common tree and its type. A number in base ten has the value that is read, and the type of that one
number. One in base sixteen is no decimal: it has no value in the common tree and the type of all numbers
(`valuesNumbers_parse`).
-/

namespace ScriptAnalysis.Semantics

open Ast (Conversion Settings)
open Decimal (Binary64)
open Syntax

/-- A number of a text is one node of the file's tree and one node of the common tree. -/
structure StandsFor (tree : Tree) (conversion : Conversion) (token : Token) (n : Node Place)
    (m : Ast.Node Ast.Place) : Prop where
  /-- The file's tree has the number as it is written, where it is written. -/
  node : n ∈ tree.root.nodes ∧ n.kind = .numericLiteral token.text ∧ n.span = token.span
  /-- No other node is it. -/
  node_unique : ∀ n' ∈ tree.root.nodes, n'.kind = .numericLiteral token.text → n'.span = token.span → n' = n
  /-- The node of the common tree comes from it. -/
  image : m ∈ conversion.tree.root.nodes ∧ m.kind.isAscription = false ∧ m.origin = n.id
  /-- No other node does. -/
  image_unique : ∀ m' ∈ conversion.tree.root.nodes, m'.kind.isAscription = false → m'.origin = n.id → m' = m

/-- A number has a value in the common tree and a type in every program. -/
structure HasValue (tree : Tree) (token : Token) (n : Node Place) (m : Ast.Node Ast.Place) (value : Binary64)
    (type : Ty) : Prop where
  /-- The literal carries the value beside the text. -/
  literal : m.kind = .literal (.number value) token.text
  /-- The type does not depend on the program that sees the file. -/
  type : ∀ v : View, v.tree = tree → v.typeAt n.id = type

/-- How a number of a text is understood: as a decimal, or not at all. -/
inductive ValuesNumber (tree : Tree) (token : Token) (n : Node Place) (m : Ast.Node Ast.Place) : Prop
  /-- A number in base ten has the value that is read. -/
  | decimal (hspelled : token.text.toList ∈ Pattern.decimalNumber) (value : Binary64)
      (hread : Decimal.read? token.text.toList = some value) (hnumber : value ≠ .nan)
      (h : HasValue tree token n m value (.numberLiteral value.text))
  /-- A number in base sixteen has none. -/
  | hex (hspelled : token.text.toList ∈ Pattern.hexNumber) (h : HasValue tree token n m .nan .number)

/-- Every number of the text stands in both trees and is understood as its spelling says. -/
def ValuesNumbers (tree : Tree) (conversion : Conversion) : Prop :=
  ∀ token ∈ tree.stream.tokens, token.kind = .numericLiteral →
    ∃ n m, StandsFor tree conversion token n m ∧ ValuesNumber tree token n m

/-- Whether a node of a common tree is a number without a value. -/
def isNan {ν β : Type} : Ast.Kind ν β → Bool
  | .literal (.number .nan) _ => true
  | _ => false

/-- Every number of the common tree has a value. -/
def NumbersHaveValues (conversion : Conversion) : Prop :=
  ∀ m ∈ conversion.tree.root.nodes, isNan m.kind = false

instance (conversion : Conversion) : Decidable (NumbersHaveValues conversion) :=
  inferInstanceAs (Decidable (∀ _ ∈ _, _))

section

variable {fileName text : String} {settings : Settings} {conversion : Conversion} {token : Token} {n : Node Place}

/-- The type of a number is that of its text. -/
theorem View.typeAt_numericLiteral {v : View} (hnode : v.tree.node? n.id = some n) {number : String}
    (hkind : n.kind = .numericLiteral number) : v.typeAt n.id = .ofNumeral number := by
  rw [typeAt_eq_computeType hnode, computeType, hkind]

/-- What a number becomes. -/
theorem exists_literal (h : Conversion.ofTree (.parse fileName text) settings = .ok conversion)
    (htoken : token ∈ (Tree.parse fileName text).stream.tokens) (hn : n ∈ (Tree.parse fileName text).root.nodes)
    (hkind : n.kind = .numericLiteral token.text) (hspan : n.span = token.span) :
    ∃ m ∈ conversion.tree.root.nodes, m.origin = n.id ∧
      m.kind = .literal (.number ((Decimal.read? token.text.toList).getD .nan)) token.text ∧
      ∀ m' ∈ conversion.tree.root.nodes, m'.kind.isAscription = false → m'.origin = n.id → m' = m := by
  obtain ⟨m, hm, hmap, hunique⟩ := Conversion.exists_convert h hn (by rw [hkind]; rfl) (by rw [hkind]; rfl)
  have hraw : n.span.textIn text.toList = token.text := by
    rw [hspan]
    exact (TokenStream.coversIn_ofChars text.toList token htoken).textIn
  obtain ⟨p, k⟩ := n
  obtain ⟨l, k'⟩ := m
  obtain rfl : k = .numericLiteral token.text := hkind
  change p.span.textIn text.toList = token.text at hraw
  rw [Ast.convert, Ast.convertKind, hraw, Ast.Node.map_mk, Ast.Node.map_mk] at hmap
  obtain ⟨horigin, hliteral⟩ := Ast.Node.mk.inj hmap
  refine ⟨_, hm, horigin, ?_, hunique⟩
  cases k' <;> cases hliteral
  rfl

end

/-- **Numbers have the values that their spelling gives them**: those in base ten have one, those in base sixteen
have none. -/
theorem valuesNumbers_parse (fileName text : String) (settings : Settings)
    (herrors : (Tree.parse fileName text).errors = []) :
    ∃ conversion, Conversion.ofTree (.parse fileName text) settings = .ok conversion ∧
      ValuesNumbers (.parse fileName text) conversion := by
  obtain ⟨conversion, h⟩ := Conversion.exists_ofTree herrors settings
  refine ⟨conversion, h, fun token htoken hkind => ?_⟩
  obtain ⟨n, ⟨hn, hnkind, hspan⟩, hnode⟩ := Tree.existsUnique_numericLiteral herrors htoken hkind
  obtain ⟨m, hm, horigin, hliteral, himage⟩ := exists_literal h htoken hn hnkind hspan
  have htype : ∀ v : View, v.tree = .parse fileName text → v.typeAt n.id = .ofNumeral token.text :=
    fun v hv => View.typeAt_numericLiteral (hv ▸ Tree.node?_id fileName text hn) hnkind
  refine ⟨n, m, ⟨⟨hn, hnkind, hspan⟩, fun n' hn' hk hs => hnode n' ⟨hn', hk, hs⟩,
    ⟨hm, by rw [hliteral]; rfl, horigin⟩, himage⟩, ?_⟩
  rcases TokenStream.mem_number_of_mem_tokens htoken hkind with hspelled | hspelled
  · have hread := Decimal.read?_of_mem_hexNumber hspelled
    rw [hread] at hliteral
    simp only [Ty.ofNumeral, hread] at htype
    exact .hex hspelled ⟨hliteral, htype⟩
  · obtain ⟨value, hread, hnumber⟩ := Decimal.read?_of_mem_decimalNumber hspelled
    rw [hread] at hliteral
    simp only [Ty.ofNumeral, hread] at htype
    exact .decimal hspelled value hread hnumber ⟨hliteral, htype⟩

/-- Two numbers in base ten and one in base sixteen. -/
theorem valuesNumbers_parse_sum :
    ∃ conversion, Conversion.ofTree (.parse "a" "1.5e3 + 2 + 0x10;") (.ofTree (.parse "a" "1.5e3 + 2 + 0x10;")) =
        .ok conversion ∧
      ValuesNumbers (.parse "a" "1.5e3 + 2 + 0x10;") conversion :=
  valuesNumbers_parse "a" "1.5e3 + 2 + 0x10;" _ (by decide +kernel)

/-- A number in base sixteen has no value. -/
theorem not_numbersHaveValues_hex :
    ¬ ∀ (fileName text : String) (settings : Settings) (conversion : Conversion),
      (Tree.parse fileName text).errors = [] →
      Conversion.ofTree (.parse fileName text) settings = .ok conversion → NumbersHaveValues conversion := by
  intro hall
  obtain ⟨conversion, h⟩ : ∃ conversion, Conversion.ofTree (.parse "a" "0x10;") (.ofTree (.parse "a" "0x10;")) =
      .ok conversion := Conversion.exists_ofTree (by decide +kernel) _
  have hmisses : (Conversion.ofTree (.parse "a" "0x10;") (.ofTree (.parse "a" "0x10;"))).toOption.all
      (fun c => decide (NumbersHaveValues c)) = false := by
    decide +kernel
  rw [h] at hmisses
  exact of_decide_eq_false hmisses (hall "a" _ _ conversion (by decide +kernel) h)

end ScriptAnalysis.Semantics
