import ScriptAnalysis.Proofs.Names.Referents
import ScriptAnalysis.Proofs.Semantics.Objects
import ScriptAnalysis.Proofs.Semantics.Relays

/-!
# Symbols and types fit together

What symbol an identifier names and what type it has are two questions, and each of them sets out on its own: the
symbol of a member asks for the type of the object, the type of the member asks for the member access, which
asks for the object. The answers fit together (`Program.symbolsHaveTypes_ofFiles`): an identifier that is not
the name of a declaration has the type of the symbol that it names, as the first declaration, the name of the
environment or the member has it. Declarations may refer to each other in circles, since references and
member accesses only relay the types of other nodes (`View.exists_ask_of_relays`).
-/

namespace ScriptAnalysis

open Semantics.Binding (IsRead isRead_parse)
open Syntax (Ident Kind Node NodeId Place Tree)

/-- A node of the file declares something under the name with this number. -/
def Syntax.Tree.DeclaresName (t : Tree) (id : NodeId) : Prop :=
  ∃ n ∈ t.root.nodes, ∃ name, n.kind.declaredName? = some name ∧ name.id = id

namespace Semantics

namespace View

/-- The type of what a symbol stands for: its first declaration, a name of the environment, or a member of an
object of the environment. -/
def symbolType? (v : View) (s : Symbol) : Option Ty :=
  match s.id with
  | .localSymbol _ => s.firstDeclaration?.map v.typeAt
  | .ambient index => v.globals.all[index]?.map (·.type)
  | .member object index => (v.globals.objects[object]?.bind (·.2[index]?)).map (·.2)

/-- An identifier that is not the name of a declaration has the type of the symbol that it names. -/
def SymbolsHaveTypes (v : View) : Prop :=
  ∀ id n text s, v.tree.node? id = some n → n.kind = .identifier text → ¬ v.tree.DeclaresName id →
    v.symbolAt? id = some s → v.symbolType? s = some (v.typeAt id)

/-- The file has been read and bound, and the objects of the environment are numbered. -/
structure IsBound (v : View) : Prop where
  tree : ∃ path text, v.tree = Tree.parse path text
  binding : v.binding? = some (.ofTree v.tree)
  globals : v.globals.Numbered

/-- An identifier names a member of the object of the member access above it. -/
theorem accessedObject?_eq_some_iff {v : View} {id : NodeId} {object : Node Place} :
    v.accessedObject? id = some object ↔
      ∃ parent name, v.tree.parentNode? id = some parent ∧ parent.kind = .propertyAccess object name ∧ name.id = id := by
  rw [accessedObject?, Option.bind_eq_bind, Option.bind_eq_some_iff]
  refine exists_congr fun parent => ?_
  rw [exists_and_left]
  refine and_congr_right fun _ => ?_
  cases parent.kind <;> simp [and_comm]

namespace IsBound

variable {v : View} {id : NodeId} {n : Node Place} {text : String} {s : Symbol}

theorem isRead (h : v.IsBound) : IsRead v.tree := by
  obtain ⟨path, text, htree⟩ := h.tree
  rw [htree]
  exact isRead_parse path text

/-- A child of a node of the file is found by its number. -/
theorem node?_child (h : v.IsBound) {p : NodeId} {parent c : Node Place} (hp : v.tree.node? p = some parent)
    (hc : c ∈ parent.children) : v.tree.node? c.id = some c :=
  h.isRead.node?_id (Node.nodes_subset_of_mem_nodes ((h.isRead.node?_iff _ _).mp hp).1
    (Node.nodes_subset_of_mem_children hc c.mem_nodes_self))

/-- A node is a child of its parent. -/
theorem mem_children_parentNode? (h : v.IsBound) {parent : Node Place} (hp : v.tree.parentNode? id = some parent) :
    v.tree.node? parent.id = some parent ∧ ∃ c ∈ parent.children, c.id = id := by
  obtain ⟨p, hid, hparent⟩ := Option.bind_eq_some_iff.mp hp
  obtain ⟨hmem, rfl⟩ := (h.isRead.node?_iff _ _).mp hparent
  refine ⟨hparent, ?_⟩
  obtain ⟨path, text, htree⟩ := h.tree
  rw [htree] at hid hparent
  obtain ⟨m, hm, hmid, hchild⟩ := Tree.mem_children_of_parent? hid
  rw [← hmid, Tree.node?_id path text hm] at hparent
  exact Option.some.inj hparent ▸ hchild

theorem declaredSymbol?_eq_none (h : v.IsBound) (hname : ¬ v.tree.DeclaresName id) :
    (Binding.ofTree v.tree).declaredSymbol? id = none := by
  have hmem : id ∉ (Binding.ofTree v.tree).declared.map (·.1) := fun hid => hname (h.isRead.exists_declaredName hid)
  rw [Binding.declaredSymbol?, List.lookup_eq_none_iff.mpr, Option.bind_none]
  intro entry hentry
  exact bne_iff_ne.mpr fun heq => hmem (heq ▸ List.mem_map_of_mem hentry)

section

variable (h : v.IsBound) (hn : v.tree.node? id = some n) (hkind : n.kind = .identifier text)
  (hname : ¬ v.tree.DeclaresName id)

include h hn hkind hname

/-- The type of an identifier that declares nothing, by what it refers to and where it stands. -/
theorem computeType_identifier (ask : NodeId → Ty) : v.computeType ask n =
    match (Binding.ofTree v.tree).resolvedSymbol? id with
    | some symbol => (symbol.firstDeclaration?.map ask).getD .any
    | none =>
      let ambient := ((v.globals.get? text).map (·.2.type)).getD .any
      match v.tree.parentNode? id with
      | none => ambient
      | some parent =>
        match parent.kind with
        | .propertyAccess _ name => if name.id = id then ask parent.id else ambient
        | .typeReference _ => .any
        | _ => ambient := by
  obtain rfl := ((h.isRead.node?_iff _ _).mp hn).2
  have hcompute : v.computeType ask n = v.identifierType ask n.id text := by rw [computeType, hkind]
  rw [hcompute, identifierType, h.binding]
  refine if_neg ?_
  rw [h.declaredSymbol?_eq_none hname]
  exact Bool.false_ne_true

/-- An identifier that refers to a symbol of the file has the type of its first declaration. -/
theorem symbolType?_of_resolved (hs : (Binding.ofTree v.tree).resolvedSymbol? id = some s) :
    v.symbolType? s = some (v.typeAt id) := by
  obtain ⟨index, -, hsymbol⟩ := Option.bind_eq_some_iff.mp hs
  obtain ⟨hid, d, hd⟩ := h.isRead.of_symbol hsymbol
  have htype : v.typeAt id = v.typeAt d := by
    refine typeAt_eq_of_ask hn fun ask => ?_
    rw [h.computeType_identifier hn hkind hname, hs]
    dsimp only
    rw [hd]
    rfl
  rw [symbolType?, hid]
  dsimp only
  rw [hd, htype]
  rfl

/-- The name of a member of an object of the environment has the type of the member. -/
theorem symbolType?_of_member {object : Node Place} (hobject : v.accessedObject? id = some object)
    (hnone : (Binding.ofTree v.tree).resolvedSymbol? id = none) {number : Nat} {typeName : String}
    {members : List (String × Ty)} (htype : v.typeAt object.id = .object number typeName members)
    (hs : Globals.memberSymbol? number members text = some s) : v.symbolType? s = some (v.typeAt id) := by
  obtain ⟨parent, name, hparent, haccess, rfl⟩ := accessedObject?_eq_some_iff.mp hobject
  obtain ⟨hnode, -⟩ := h.mem_children_parentNode? hparent
  have hmember : name.toNode ∈ parent.children := by
    obtain ⟨l, k⟩ := parent
    rw [Node.kind_mk] at haccess
    subst haccess
    exact List.mem_cons_of_mem _ List.mem_cons_self
  have htext : name.text = text := Binding.text_eq_of_node? hn hkind (h.node?_child hnode hmember)
  have hid : v.typeAt name.id = v.typeAt parent.id := by
    refine typeAt_eq_of_ask hn fun ask => ?_
    rw [h.computeType_identifier hn hkind hname, hnone, hparent]
    dsimp only
    rw [haccess]
    exact if_pos rfl
  obtain ⟨⟨index, type⟩, hget, rfl⟩ := Option.map_eq_some_iff.mp hs
  rw [hid, typeAt_propertyAccess hnode haccess, htype, htext, symbolType?, memberType, hget]
  dsimp only
  rw [getElem?_objects_of_typeAt h.globals htype, Option.bind_some, getElem?_of_member? hget]
  rfl

/-- A reference to a value that is nothing in the file has the type of the name of the environment. -/
theorem symbolType?_of_unresolved (hobject : v.accessedObject? id = none)
    (hnone : (Binding.ofTree v.tree).resolvedSymbol? id = none)
    (hunresolved : (Binding.ofTree v.tree).isUnresolved id = true) (hs : v.globals.symbol? text = some s) :
    v.symbolType? s = some (v.typeAt id) := by
  obtain ⟨⟨index, g⟩, hget, rfl⟩ := Option.map_eq_some_iff.mp hs
  have htype : v.typeAt id = g.type := by
    rw [typeAt_eq_computeType hn, h.computeType_identifier hn hkind hname, hnone, hget]
    dsimp only
    cases hparent : v.tree.parentNode? id with
    | none => rfl
    | some parent =>
      dsimp only
      cases hparentKind : parent.kind with
      | propertyAccess object name =>
        refine if_neg fun hid => ?_
        have hsome := accessedObject?_eq_some_iff.mpr ⟨parent, name, hparent, hparentKind, hid⟩
        exact absurd (hsome.symm.trans hobject) nofun
      | typeReference name =>
        obtain ⟨hnode, c, hc, hcid⟩ := h.mem_children_parentNode? hparent
        obtain ⟨l, k⟩ := parent
        obtain rfl : k = .typeReference name := hparentKind
        obtain rfl : c = name.toNode := List.mem_singleton.mp hc
        exact absurd hcid (h.isRead.ne_of_isUnresolved hunresolved ((h.isRead.node?_iff _ _).mp hnode).1 rfl)
      | _ => rfl
  rw [htype, symbolType?]
  dsimp only
  rw [Globals.getElem?_of_get? hget]
  rfl

end

/-- An identifier that is not the name of a declaration has the type of the symbol that it names. -/
theorem symbolsHaveTypes (h : v.IsBound) : v.SymbolsHaveTypes := by
  intro id n text s hn hkind hname hs
  rw [symbolAt?, hn, Option.bind_eq_bind, Option.bind_some, hkind] at hs
  dsimp only at hs
  rw [identifierSymbol?, h.binding, Option.bind_eq_bind, Option.bind_some, Binding.symbol?,
    h.declaredSymbol?_eq_none hname, Option.none_or] at hs
  cases hresolved : (Binding.ofTree v.tree).resolvedSymbol? id with
  | some symbol =>
    rw [hresolved] at hs
    exact h.symbolType?_of_resolved hn hkind hname (hresolved.trans hs)
  | none =>
    rw [hresolved] at hs
    dsimp only at hs
    cases hobject : v.accessedObject? id with
    | some object =>
      rw [hobject] at hs
      dsimp only at hs
      split at hs
      · rename_i htype
        exact h.symbolType?_of_member hn hkind hname hobject hresolved htype hs
      · cases hs
    | none =>
      rw [hobject] at hs
      dsimp only at hs
      split at hs
      · rename_i hunresolved
        exact h.symbolType?_of_unresolved hn hkind hname hobject hresolved hunresolved hs
      · cases hs

end IsBound

end View

/-! ### Programs -/

/-- In every file of the program identifiers have the types of the symbols that they name. -/
def Program.SymbolsHaveTypes (p : Program) : Prop :=
  ∀ path file, p.file? path = some file → (View.ofProgram p file.tree).SymbolsHaveTypes

/-- What answers for a path is a file of the program with this path. -/
theorem Program.of_file? {p : Program} {path : String} {file : ProgramFile} (h : p.file? path = some file) :
    file ∈ p.files ∧ file.path = path := by
  rw [file?] at h
  have hpath := List.find?_some h
  exact ⟨List.mem_reverse.mp (List.mem_of_find?_eq_some h), beq_iff_eq.mp hpath⟩

theorem Program.isBound_ofFiles (options : Config.Options) (texts : List (String × String)) {path : String}
    {file : ProgramFile}
    (h : (ofFiles options (texts.map fun t => ProgramFile.ofText t.1 t.2)).file? path = some file) :
    (View.ofProgram (ofFiles options (texts.map fun t => ProgramFile.ofText t.1 t.2)) file.tree).IsBound := by
  obtain ⟨hfile, hpath⟩ := of_file? h
  obtain ⟨t, -, ht⟩ := List.mem_map.mp hfile
  have htree : file.tree = Tree.parse t.1 t.2 := by rw [← ht, ProgramFile.ofText]
  have hbinding : file.binding = .ofTree file.tree := by rw [← ht, ProgramFile.ofText]
  refine ⟨⟨t.1, t.2, htree⟩, ?_, Globals.numbered_ofLibs _⟩
  rw [View.ofProgram]
  dsimp only
  rw [← ProgramFile.path, hpath, h, Option.map_some, hbinding]

/-- **Symbols and types fit together** in every file of a program, whatever the texts and the options are. -/
theorem Program.symbolsHaveTypes_ofFiles (options : Config.Options) (texts : List (String × String)) :
    (ofFiles options (texts.map fun t => ProgramFile.ofText t.1 t.2)).SymbolsHaveTypes :=
  fun _ _ h => (isBound_ofFiles options texts h).symbolsHaveTypes

-- The two declarations are in a circle: each type is cut off where it comes back to its own declaration.
example :
    let v := View.ofProgram (.ofFiles {} [.ofText "a" "let a = [b]; let b = [a]; b; Math.PI;"])
      (.parse "a" "let a = [b]; let b = [a]; b; Math.PI;")
    [1, 6, 10, 12, 13].map (fun id => (v.symbolAt? id).map fun s => (s.id, (v.symbolType? s).map Ty.display)) =
      [some (.localSymbol 1, some "any[][]"), some (.localSymbol 0, some "any[][]"),
        some (.localSymbol 1, some "any[][]"), some (.ambient 6, some "Math"), some (.member 0 0, some "number")] := by
  decide +kernel

end Semantics

end ScriptAnalysis
