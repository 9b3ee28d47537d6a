import ScriptAnalysis.Proofs.Ast.Nesting

/-!
# The grammar of common trees

A node gives each of its children a slot: the name of what it declares, an expression, a type, and so on.
A tree is grammatical when every child fits its slot, and no name is empty. What a file without errors
becomes is grammatical (`grammatical_ofTree`).
-/

namespace ScriptAnalysis

namespace Ast

/-- What a child is to its parent. -/
inductive Slot (β : Type) where
  /-- A statement. -/
  | statement
  /-- The body of a function: a block or an expression. -/
  | body
  /-- An expression. -/
  | expression
  /-- A type, or the ascription around one. -/
  | type
  /-- One of the variables of a declaration. -/
  | declarator
  /-- A parameter: a name, or a name with a default value. -/
  | parameter
  /-- The name of a variable or of a parameter with its first value, if there is one. -/
  | binding (value? : Option β)
  /-- The name of a function or of a type. -/
  | name
  /-- The name of a member. -/
  | member
  /-- The name in a type that is a name. -/
  | typeName
  deriving Repr

namespace Slot

variable {β β' : Type}

/-- The slot with the value changed. -/
def map (g : β → β') : Slot β → Slot β'
  | statement => statement
  | body => body
  | expression => expression
  | type => type
  | declarator => declarator
  | parameter => parameter
  | binding value? => binding (value?.map g)
  | name => name
  | member => member
  | typeName => typeName

end Slot

namespace Kind

variable {ν ν' β β' γ : Type}

/-- Whether the node is a name. -/
def isIdentifier : Kind ν β → Bool
  | identifier .. => true
  | _ => false

/-- Whether the node is a statement. -/
def isStatement : Kind ν β → Bool
  | variableDeclaration .. | functionDeclaration .. | typeAlias .. | blockStatement _ | expressionStatement _
  | returnStatement _ | ifStatement .. | whileStatement .. | emptyStatement => true
  | _ => false

/-- Whether the node is an expression; a name among them is not empty and has no ascription. -/
def isExpression : Kind ν β → Bool
  | identifier text ascription? => text != "" && ascription?.isNone
  | literal .. | arrayExpression _ | arrowFunction .. | callExpression .. | memberExpression ..
  | unaryExpression .. | binaryExpression .. => true
  | _ => false

/-- Whether the node is a type or the ascription around one. -/
def isType : Kind ν β → Bool
  | ascription _ | typeReference _ | arrayType _ | unionType _ | keywordType _ => true
  | _ => false

/-- Whether a node of the kind fits a slot. -/
def fits (k : Kind ν β) : Slot γ → Bool
  | .statement => k.isStatement
  | .body => match k with | blockStatement _ => true | k => k.isExpression
  | .expression => k.isExpression
  | .type => k.isType
  | .declarator => match k with | variableDeclarator .. => true | _ => false
  | .parameter => match k with | identifier text _ => text != "" | assignmentPattern .. => true | _ => false
  | .binding _ => match k with | identifier text _ => text != "" | _ => false
  | .name | .member | .typeName =>
    match k with | identifier text ascription? => text != "" && ascription?.isNone | _ => false

/-- The children with their slots. -/
def parts : Kind β β → List (Slot β × β)
  | program ss | blockStatement ss => ss.map (.statement, ·)
  | variableDeclaration _ ds => ds.map (.declarator, ·)
  | variableDeclarator n i => (.binding i, n) :: i.toList.map (.expression, ·)
  | functionDeclaration n ps t b =>
    (.name, n) :: (ps.map (.parameter, ·) ++ (t.toList.map (.type, ·) ++ [(.body, b)]))
  | typeAlias n t => [(.name, n), (.type, t)]
  | expressionStatement e | unaryExpression _ e => [(.expression, e)]
  | returnStatement e => e.toList.map (.expression, ·)
  | ifStatement c t e => (.expression, c) :: (.statement, t) :: e.toList.map (.statement, ·)
  | whileStatement c b => [(.expression, c), (.statement, b)]
  | identifier _ t => t.toList.map (.type, ·)
  | arrayExpression es => es.map (.expression, ·)
  | arrowFunction ps t b _ => ps.map (.parameter, ·) ++ (t.toList.map (.type, ·) ++ [(.body, b)])
  | callExpression e as => (.expression, e) :: as.map (.expression, ·)
  | memberExpression e n => [(.expression, e), (.member, n)]
  | binaryExpression _ l r => [(.expression, l), (.expression, r)]
  | assignmentPattern n e => [(.binding (some e), n), (.expression, e)]
  | ascription t | arrayType t => [(.type, t)]
  | typeReference n => [(.typeName, n)]
  | unionType ts => ts.map (.type, ·)
  | emptyStatement | literal .. | keywordType _ => []

@[simp] theorem fits_map (f : ν → ν') (g : β → β') (k : Kind ν β) (slot : Slot γ) :
    (k.map f g).fits slot = k.fits slot := by
  cases slot <;> cases k <;> first | rfl | simp [map, fits, isExpression]

@[simp] theorem fits_slot_map {δ : Type} (g : γ → δ) (k : Kind ν β) (slot : Slot γ) :
    k.fits (slot.map g) = k.fits slot := by
  cases slot <;> rfl

theorem parts_map (g : β → β') (k : Kind β β) :
    (k.map g g).parts = k.parts.map fun part => (part.1.map g, g part.2) := by
  cases k <;> simp [map, parts, Slot.map, Option.toList_map, Function.comp_def]

/-- The parts are the children. -/
theorem map_snd_parts (k : Kind β β) : k.parts.map (·.2) = k.children := by
  cases k <;> simp [parts, children, Function.comp_def]

end Kind

namespace Node

variable {α α' : Type}

/-- The children with their slots. -/
def parts (n : Node α) : List (Slot (Node α) × Node α) := n.shape.parts

/-- Every child in the tree fits its slot. -/
def Grammatical (n : Node α) : Prop := ∀ m ∈ n.nodes, ∀ part ∈ m.parts, part.2.kind.fits part.1 = true

/-- The node fits the slot, and every child in it its own. -/
structure Fills (slot : Slot (Node α)) (n : Node α) : Prop where
  fits : n.kind.fits slot = true
  grammatical : n.Grammatical

theorem map_snd_parts (n : Node α) : n.parts.map (·.2) = n.children := n.shape.map_snd_parts

theorem parts_map (g : α → α') (n : Node α) :
    (n.map g).parts = n.parts.map fun part => (part.1.map (map g), part.2.map g) := by
  obtain ⟨l, k⟩ := n
  simp only [parts, shape, map_mk, kind_mk, ← Kind.parts_map, Kind.map_map, map_toNode]
  rfl

theorem fits_kind_map {γ : Type} (g : α → α') (n : Node α) (slot : Slot γ) :
    (n.map g).kind.fits slot = n.kind.fits slot := by
  obtain ⟨l, k⟩ := n
  rw [map_mk, kind_mk, Kind.fits_map, kind_mk]

theorem grammatical_map (g : α → α') (n : Node α) : (n.map g).Grammatical ↔ n.Grammatical := by
  simp only [Grammatical, nodes_map, List.forall_mem_map, parts_map, fits_kind_map, Kind.fits_slot_map]

/-- A tree is grammatical when its children fill their slots. -/
theorem grammatical_iff {n : Node α} : n.Grammatical ↔ ∀ part ∈ n.parts, part.2.Fills part.1 := by
  have hchild : ∀ {part : Slot (Node α) × Node α}, part ∈ n.parts → part.2 ∈ n.children := fun hpart =>
    map_snd_parts n ▸ List.mem_map_of_mem hpart
  constructor
  · exact fun h part hpart => ⟨h n n.mem_nodes_self part hpart,
      fun m hm => h m (nodes_subset_of_mem_children (hchild hpart) hm)⟩
  · intro h m hm part hpart
    rcases mem_nodes_iff.mp hm with hm | rfl
    · obtain ⟨c, hc, hm⟩ := mem_inner_iff.mp hm
      rw [← map_snd_parts] at hc
      obtain ⟨part', hpart', rfl⟩ := List.mem_map.mp hc
      exact (h part' hpart').grammatical m hm part hpart
    · exact (h part hpart).fits

theorem Fills.body {n : Node α} (h : n.Fills .expression) : n.Fills .body := by
  refine ⟨?_, h.grammatical⟩
  have hfits := h.fits
  obtain ⟨l, k⟩ := n
  cases k <;> first | exact hfits | rfl

theorem fills_toNode_iff {n : Name α (Node α)} {value? : Option (Node α)} :
    n.toNode.Fills (.binding value?) ↔ n.text ≠ "" ∧ ∀ a ∈ n.ascription?, a.Fills .type := by
  have hself : n.toNode.Grammatical ↔ ∀ a ∈ n.ascription?, a.Fills .type := by
    rw [grammatical_iff]
    simp [parts, shape, Name.toNode, Kind.map, Kind.parts]
  constructor
  · exact fun h => ⟨by simpa [Name.toNode, Kind.fits] using h.fits, hself.mp h.grammatical⟩
  · exact fun h => ⟨by simpa [Name.toNode, Kind.fits] using h.1, hself.mpr h.2⟩

end Node

/-! ### The change of shape -/

section

open Syntax (Role)

variable (source : List Char)

/-- The slot of what a node becomes. -/
def Slot.ofRole {β : Type} : Role → Slot β
  | .file | .statement => .statement
  | .block | .body => .body
  | .expression => .expression
  | .type => .type
  | .declaration => .declarator
  | .parameter => .parameter

theorem fills_plainName {i : Syntax.Ident Syntax.Place} (hi : i.text ≠ "") {slot : Slot (Node Origin)}
    (hslot : (Kind.identifier i.text none : Kind (Name Origin (Node Origin)) (Node Origin)).fits slot = true) :
    (plainName i).toNode.Fills slot :=
  have hbinding : (plainName i).toNode.Fills (.binding none) :=
    Node.fills_toNode_iff.mpr ⟨hi, by simp [plainName, ascribedName]⟩
  ⟨hslot, hbinding.grammatical⟩

theorem fills_convertAscription {t? : Option (Syntax.Node Syntax.Place)}
    (h : ∀ t ∈ t?, (convert source t).Fills .type) : ∀ a ∈ convertAscription source t?, a.Fills .type := by
  cases t? with
  | none => simp [convertAscription]
  | some t =>
    have htype := h t rfl
    obtain ⟨p, k⟩ := t
    rw [convert] at htype
    rintro _ ⟨⟩
    refine ⟨rfl, Node.grammatical_iff.mpr ?_⟩
    simpa [Node.parts, Node.shape, Kind.map, Kind.parts] using htype

variable {p : Syntax.Place} {k : Syntax.Kind (Syntax.Ident Syntax.Place) (Syntax.Node Syntax.Place)}

/-- What a node becomes fits the slot that goes with the role of the node. -/
theorem fits_convertKind {role : Role} (hrole : role ≠ .file) (hfits : k.fits role = true)
    (hself : k.identifierText? ≠ some "") (hnames : ∀ i ∈ k.names, i.text ≠ "")
    (hparts : ∀ part ∈ k.parts, (convert source part.2).Fills (.ofRole part.1)) :
    (convertKind source p k).kind.fits (Slot.ofRole role : Slot (Node Origin)) = true := by
  cases k with
  | parenthesized e =>
    have he := hparts _ List.mem_cons_self
    cases role <;> first | exact he.fits | exact he.body.fits | cases hfits
  | identifier text =>
    have htext : text ≠ "" := fun h => hself (congrArg some h)
    cases role <;> first
      | simpa [convertKind, Slot.ofRole, Kind.fits, Kind.isExpression] using htext
      | cases hfits
  | parameter i t? default? =>
    have hi := hnames i List.mem_cons_self
    obtain rfl : role = .parameter := by cases role <;> first | rfl | cases hfits
    cases default? with
    | none => simpa [convertKind, Slot.ofRole, Kind.fits, ascribedName, Name.toNode] using hi
    | some e => rfl
  | _ => cases role <;> first | exact absurd rfl hrole | rfl | cases hfits

/-- The parameters, the types and the body of a function. -/
theorem fills_function {ps : List (Syntax.Node Syntax.Place)} {t? : Option (Syntax.Node Syntax.Place)}
    {b : Syntax.Node Syntax.Place} {role : Role} (hrole : (Slot.ofRole role : Slot (Node Origin)) = .body)
    (h : ∀ part ∈ ps.map (Role.parameter, ·) ++ (t?.toList.map (Role.type, ·) ++ [(role, b)]),
      (convert source part.2).Fills (.ofRole part.1)) :
    ∀ part ∈ (ps.map (convert source)).map (Slot.parameter, ·) ++
      ((convertAscription source t?).toList.map (Slot.type, ·) ++ [(Slot.body, convert source b)]),
      part.2.Fills part.1 := by
  obtain ⟨hps, h⟩ := List.forall_mem_append.mp h
  obtain ⟨ht, hb⟩ := List.forall_mem_append.mp h
  refine List.forall_mem_append.mpr ⟨?_, List.forall_mem_append.mpr ⟨?_, ?_⟩⟩
  · simpa [Slot.ofRole] using hps
  · have ht : ∀ t ∈ t?, (convert source t).Fills .type := by simpa [Slot.ofRole] using ht
    simpa using fills_convertAscription source ht
  · rw [← hrole]
    exact List.forall_mem_singleton.mpr (hb _ List.mem_cons_self)

/-- The children of what a node becomes fill their slots when the parts of the node become what does. -/
theorem grammatical_convertKind (hnames : ∀ i ∈ k.names, i.text ≠ "")
    (hparts : ∀ part ∈ k.parts, (convert source part.2).Fills (.ofRole part.1)) :
    (convertKind source p k).Grammatical := by
  have hname : ∀ {i : Syntax.Ident Syntax.Place}, i.text ≠ "" → (plainName i).toNode.Fills .name ∧
      (plainName i).toNode.Fills .member ∧ (plainName i).toNode.Fills .typeName := fun hi =>
    ⟨fills_plainName hi (by simpa [Kind.fits]), fills_plainName hi (by simpa [Kind.fits]),
      fills_plainName hi (by simpa [Kind.fits])⟩
  have hbinding : ∀ {i : Syntax.Ident Syntax.Place} {t? value?}, i.text ≠ "" →
      (∀ t ∈ t?, (convert source t).Fills .type) →
        (ascribedName i t? (convertAscription source t?)).toNode.Fills (.binding value?) := fun hi ht =>
    Node.fills_toNode_iff.mpr ⟨hi, fills_convertAscription source ht⟩
  cases k with
  | parenthesized e => exact (hparts _ List.mem_cons_self).grammatical
  | parameter i t? default? =>
    have hi := hnames i List.mem_cons_self
    obtain ⟨ht, he⟩ := List.forall_mem_append.mp hparts
    have ht : ∀ t ∈ t?, (convert source t).Fills .type := by simpa [Slot.ofRole] using ht
    cases default? with
    | none => exact (hbinding hi ht : Node.Fills (.binding none) _).grammatical
    | some e =>
      have he : (convert source e).Fills .expression := he _ List.mem_cons_self
      simpa [convertKind, Node.grammatical_iff, Node.parts, Node.shape, Kind.map, Kind.parts]
        using ⟨hbinding hi ht, he⟩
  | variableDeclaration i t? e? =>
    have hi := hnames i List.mem_cons_self
    obtain ⟨ht, he⟩ := List.forall_mem_append.mp hparts
    have ht : ∀ t ∈ t?, (convert source t).Fills .type := by simpa [Slot.ofRole] using ht
    have he : ∀ e ∈ e?, (convert source e).Fills .expression := by simpa [Slot.ofRole] using he
    simpa [convertKind, Node.grammatical_iff, Node.parts, Node.shape, Kind.map, Kind.parts,
      convertOption_eq_map] using ⟨hbinding hi ht, he⟩
  | functionDeclaration i ps t? b =>
    have hparts := fills_function source rfl hparts
    have hi := (hname (hnames i List.mem_cons_self)).1
    rw [convertKind, Node.grammatical_iff, convertList_eq_map]
    simpa only [Node.parts, Node.shape, Node.kind_mk, Kind.map, Kind.parts, List.forall_mem_cons, List.map_id,
      Option.map_id, id] using ⟨hi, hparts⟩
  | arrowFunction ps t? b =>
    have hparts := fills_function source rfl hparts
    rw [convertKind, Node.grammatical_iff, convertList_eq_map]
    simpa only [Node.parts, Node.shape, Node.kind_mk, Kind.map, Kind.parts, List.map_id, Option.map_id, id]
      using hparts
  | typeAlias i t =>
    simpa [convertKind, Node.grammatical_iff, Node.parts, Node.shape, Kind.map, Kind.parts]
      using ⟨(hname (hnames i List.mem_cons_self)).1, hparts _ List.mem_cons_self⟩
  | propertyAccess e i =>
    simpa [convertKind, Node.grammatical_iff, Node.parts, Node.shape, Kind.map, Kind.parts]
      using ⟨hparts _ List.mem_cons_self, (hname (hnames i List.mem_cons_self)).2.1⟩
  | typeReference i =>
    simpa [convertKind, Node.grammatical_iff, Node.parts, Node.shape, Kind.map, Kind.parts]
      using (hname (hnames i List.mem_cons_self)).2.2
  | identifier | numericLiteral | stringLiteral | trueLiteral | falseLiteral | nullLiteral | emptyStatement
  | keywordType =>
    exact Node.grammatical_iff.mpr (List.forall_mem_nil _)
  | _ =>
    simpa [Syntax.Kind.parts, Slot.ofRole, convertKind, Node.grammatical_iff, Node.parts, Node.shape,
      Kind.map, Kind.parts, convertList_eq_map, convertOption_eq_map] using hparts

/-- What stands in a grammatical tree without empty names becomes what fills its slot. -/
theorem fills_convert {n : Syntax.Node Syntax.Place} {role : Role} (h : n.Formed role) (hrole : role ≠ .file)
    (hnamed : ∀ m ∈ n.nodes, m.kind.identifierText? ≠ some "") :
    (convert source n).Fills (.ofRole role) := by
  induction h with
  | @mk role p k hfits _ _ ih =>
    have hchild : ∀ {c : Syntax.Node Syntax.Place}, c ∈ (Syntax.Node.mk p k).children →
        ∀ m ∈ c.nodes, m.kind.identifierText? ≠ some "" := fun hc m hm =>
      hnamed m (Syntax.Node.nodes_subset_of_mem_children hc hm)
    have hnames : ∀ i ∈ k.names, i.text ≠ "" := fun i hi htext =>
      hchild (Syntax.Node.toNode_mem_children_of_mem_names hi) _ (Syntax.Node.mem_nodes_self _)
        (congrArg some htext)
    have hparts : ∀ part ∈ k.parts, (convert source part.2).Fills (.ofRole part.1) := fun part hpart =>
      ih part hpart (Syntax.Kind.role_ne_file_of_mem_parts hpart)
        (hchild (Syntax.Node.mem_children_of_mem_parts hpart))
    rw [convert]
    exact ⟨fits_convertKind source hrole hfits (hnamed _ (Syntax.Node.mem_nodes_self _)) hnames hparts,
      grammatical_convertKind source hnames hparts⟩

end

/-! ### The whole tree -/

theorem parts_program (t : Syntax.Tree) :
    (program t).parts = (t.statements.map (convert t.text.toList)).map (Slot.statement, ·) := by
  rw [← convertList_eq_map]
  exact congrArg _ (List.map_id _)

theorem grammatical_program {fileName text : String} (herrors : (Syntax.Tree.parse fileName text).errors = []) :
    (program (.parse fileName text)).Grammatical := by
  have hsits := sits_statements herrors
  have hformed := Syntax.Tree.formed_root_parse fileName text
  rw [Node.grammatical_iff, parts_program, List.forall_mem_map, List.forall_mem_map]
  intro n hn
  have hstatement : n.Formed .statement := by
    refine hformed.of_mem_parts (p := (.statement, n)) ?_
    rw [Syntax.Tree.kind_root_parse]
    exact List.mem_map_of_mem hn
  refine fills_convert text.toList hstatement (by decide) fun m hm => ?_
  have hnamed := (hsits.tidy _ (List.mem_map_of_mem hn) (m.map Syntax.Place.span)
    (Syntax.Node.nodes_map .. ▸ List.mem_map_of_mem hm)).named
  rw [Syntax.Node.kind_map] at hnamed
  obtain ⟨p, k⟩ := m
  cases k <;> exact hnamed

/-- The common tree of a file without errors is grammatical. -/
theorem Conversion.grammatical_ofTree {fileName text : String} {settings : Settings} {conversion : Conversion}
    (herrors : (Syntax.Tree.parse fileName text).errors = [])
    (h : ofTree (.parse fileName text) settings = .ok conversion) : conversion.tree.root.Grammatical := by
  obtain ⟨f, -, hroot, -⟩ := of_ofTree_eq_ok h
  have hshape : conversion.tree.root.map (fun _ => ()) = (program (.parse fileName text)).map fun _ => () := by
    rw [hroot, Node.map_number f _ (fun _ => ()) fun _ _ => rfl]
  rw [← Node.grammatical_map (fun _ => ()), hshape, Node.grammatical_map]
  exact grammatical_program herrors

end Ast

end ScriptAnalysis
