import ScriptAnalysis.Proofs.Semantics.Mismatches
import ScriptAnalysis.Proofs.Semantics.NormalTypes
import ScriptAnalysis.Proofs.Types.Widened

/-!
# No report contradicts itself

A report about types shows the type of a value and the written one, the first with literals only where the second has
some. Written types have none: nobody can write one, and names for types stand for what is written
(`View.Tells.widened_writtenType`). So the type of the value is shown widened, and it is not the written type since a
type is assignable to what it is widened to. The two are written differently, and neither written form has an
apostrophe in it, so the sentence does not say of one text that it is not assignable to itself
(`Program.showsDifferentTypes_ofFiles`).
-/

namespace ScriptAnalysis

open Syntax

/-- Whether no literal is in the types of nodes of the kind: they are parameters or names for types. -/
def Syntax.Kind.isWidening {ν β : Type} : Kind ν β → Bool
  | parameter .. | typeAlias .. => true
  | _ => false

namespace Semantics

/-! ### The names of the environment -/

/-- There are no literals in what a name of the environment is. -/
def Ambient.IsWidened : Ambient → Prop
  | value type => type.Widened
  | object _ members => ∀ m ∈ members, m.2.Widened

theorem Ambient.isWidened_of_mem : ∀ e ∈ language ++ document, e.2.IsWidened := by
  simp (disch := decide) [-Prod.forall, language, document, console, IsWidened, unaryMath, variadicMath, print,
    required, optional, rest]
  decide

namespace Globals

/-- There are no literals in the types of the names of the environment. -/
def AreWidened (globals : Globals) : Prop := ∀ g ∈ globals.all, g.type.Widened

theorem AreWidened.define {globals : Globals} (h : globals.AreWidened) {entry : String × Ambient}
    (hentry : entry.2.IsWidened) : (globals.define entry).AreWidened := by
  rw [Globals.define]
  split
  · exact h
  split
  · rename_i type htype
    rw [htype] at hentry
    exact List.forall_mem_append.mpr ⟨h, List.forall_mem_singleton.mpr hentry⟩
  · rename_i typeName members htype
    rw [htype] at hentry
    exact List.forall_mem_append.mpr ⟨h, List.forall_mem_singleton.mpr (Ty.widened_object_iff.mpr hentry)⟩

theorem areWidened_ofLibs (libs : List Config.Lib) : (ofLibs libs).AreWidened :=
  induction_ofLibs libs (List.forall_mem_singleton.mpr (Ty.widened_of_isPlain rfl rfl))
    fun _ h e he => h.define (Ambient.isWidened_of_mem e he)

end Globals

/-! ### The types of nodes -/

namespace View

variable {v : View} {ask : NodeId → Ty} {n : Node Place}

/-- In the answers to what type a node has, literals are near the top, and there are none in those about parameters
and names for types. -/
structure Tells (v : View) (ask : NodeId → Ty) : Prop where
  shallow : ∀ id, (ask id).Shallow
  widened : ∀ n ∈ v.tree.root.nodes, n.kind.isWidening = true → (ask n.id).Widened

theorem shallow_of_isPlain {t : Ty} (h : t.isPlain = true) : t.Shallow := by
  cases hliteral : t.isLiteral with
  | true => exact .literal hliteral
  | false => exact .widened (Ty.widened_of_isPlain h hliteral)

theorem shallow_sumType (left right : Ty) : (sumType left right).Shallow := by
  unfold sumType
  split
  · exact shallow_of_isPlain rfl
  split <;> exact shallow_of_isPlain rfl

/-- What a function with a shallow type returns has no literals. -/
theorem widened_result {params : List (Param Ty)} {ret : Ty} (h : (Ty.function params ret).Shallow) : ret.Widened :=
  (Ty.widened_function_iff.mp (h.widened_of_not rfl nofun)).2

theorem shallow_memberType {object : Ty} (h : object.Shallow) (name : String) : (memberType object name).Shallow := by
  unfold memberType
  split
  · rename_i members
    cases hget : Ty.member? members name with
    | none => exact shallow_of_isPlain rfl
    | some found =>
      have hmembers := Ty.widened_object_iff.mp (h.widened_of_not rfl nofun)
      exact .widened (hmembers _ (List.mem_of_getElem? (getElem?_of_member? hget)))
  all_goals
    first
      | exact shallow_of_isPlain rfl
      | split <;> exact shallow_of_isPlain rfl

theorem shallow_ambient (hglobals : v.globals.AreWidened) (name : String) :
    Ty.Shallow (((v.globals.get? name).map (·.2.type)).getD .any) := by
  cases hget : v.globals.get? name with
  | none => exact shallow_of_isPlain rfl
  | some found => exact .widened (hglobals found.2 (List.mem_of_getElem? (Globals.getElem?_of_get? hget)))

/-- A name for a type is declared by a node that says which. -/
theorem IsBound.exists_of_aliasDeclaration? (h : v.IsBound) {name id : NodeId}
    (hid : v.aliasDeclaration? name = some id) : ∃ n ∈ v.tree.root.nodes, n.id = id ∧ n.kind.isWidening = true := by
  rw [aliasDeclaration?, h.binding, Option.bind_eq_bind, Option.bind_some] at hid
  obtain ⟨symbol, hsymbol, hid⟩ := Option.bind_eq_some_iff.mp hid
  split at hid
  · rename_i hkind
    obtain ⟨index, -, hindex⟩ := Option.bind_eq_some_iff.mp hsymbol
    obtain ⟨n, hn, hdeclares⟩ := h.isRead.declaresAs_of_symbol hindex hid
    obtain ⟨hmem, hnid⟩ := h.numbered.node?_iff.mp hn
    refine ⟨n, hmem, hnid, ?_⟩
    rw [hkind] at hdeclares
    cases hn : n.kind <;> simp [hn, Kind.declaresAs] at hdeclares
    rfl
  · cases hid

namespace Tells

theorem shallow_getD (hask : v.Tells ask) (id? : Option NodeId) : Ty.Shallow ((id?.map ask).getD .any) := by
  cases id? with
  | none => exact shallow_of_isPlain rfl
  | some id => exact hask.shallow id

mutual

/-- **No literal is in a written type.** -/
theorem widened_writtenType (h : v.IsBound) (hask : v.Tells ask) : (n : Node Place) → (v.writtenType ask n).Widened
  | .mk l k => by
    cases k <;> rw [writtenType]
    case keywordType keyword => cases keyword <;> exact Ty.widened_of_isPlain rfl rfl
    case typeReference name =>
      cases halias : v.aliasDeclaration? name.id with
      | none => exact Ty.widened_of_isPlain rfl rfl
      | some id =>
        obtain ⟨n, hn, rfl, hkind⟩ := h.exists_of_aliasDeclaration? halias
        exact hask.widened n hn hkind
    case arrayType element => exact Ty.widened_array_iff.mpr (widened_writtenType h hask element)
    case unionType members => exact Ty.widened_unionOf (widened_writtenTypes h hask members)
    all_goals first | exact Ty.widened_of_isPlain rfl rfl | nofun

theorem widened_writtenTypes (h : v.IsBound) (hask : v.Tells ask) :
    (ns : List (Node Place)) → ∀ t ∈ v.writtenTypes ask ns, t.Widened
  | [] => by
    rw [writtenTypes]
    exact fun _ ht => absurd ht List.not_mem_nil
  | n :: ns => by
    rw [writtenTypes]
    exact List.forall_mem_cons.mpr ⟨widened_writtenType h hask n, widened_writtenTypes h hask ns⟩

end

section

variable (h : v.IsBound) (hask : v.Tells ask)

include hask

theorem shallow_binaryType (op : BinaryOperator) (left right : NodeId) :
    (v.binaryType ask op left right).Shallow := by
  unfold binaryType
  split
  · exact hask.shallow right
  · exact hask.shallow right
  · refine Ty.shallow_unionOf (List.forall_mem_cons.mpr ⟨hask.shallow left, ?_⟩)
    exact List.forall_mem_singleton.mpr (hask.shallow right)
  · exact shallow_sumType ..
  · exact shallow_sumType ..
  · split <;> exact shallow_of_isPlain rfl

theorem widened_inferredReturn (returns : List (Option (Node Place))) :
    (Ty.unionOf v.strict (returns.map fun
      | some expr => (ask expr.id).widen v.strict
      | none => .undefined)).Widened := by
  refine Ty.widened_unionOf (List.forall_mem_map.mpr fun expr? _ => ?_)
  cases expr? with
  | none => exact Ty.widened_of_isPlain rfl rfl
  | some expr => exact (hask.shallow expr.id).widen

include h

/-- There are no literals in the type of a function of the file. -/
theorem widened_functionType (params : List (Node Place)) (hparams : ∀ p ∈ params, p ∈ v.tree.root.nodes)
    (returnType? : Option (Node Place)) (body : Node Place) :
    (v.functionType ask params returnType? body).Widened := by
  refine Ty.widened_function_iff.mpr ⟨fun p hp => ?params, ?ret⟩
  case params =>
    obtain ⟨n, hn, hparam⟩ := List.mem_filterMap.mp hp
    have hmem := hparams n hn
    split at hparam
    · rename_i name type? init? hkind
      obtain rfl := Option.some.inj hparam
      have hname : name.toNode ∈ n.children := by
        obtain ⟨l, k⟩ := n
        obtain rfl : k = .parameter name type? init? := hkind
        exact List.mem_cons_self
      have hname := Node.nodes_subset_of_mem_nodes hmem
        (Node.nodes_subset_of_mem_children hname name.toNode.mem_nodes_self)
      obtain ⟨path, text, htree⟩ := h.tree
      rw [htree] at hname
      exact ⟨Tree.isNamePart_of_identifier hname rfl, hask.widened n hmem (by rw [hkind]; rfl)⟩
    · cases hparam
  case ret =>
    split
    · exact hask.widened_writtenType h _
    · dsimp only
      split
      · exact Ty.widened_of_isPlain rfl rfl
      · exact hask.widened_inferredReturn _
    · exact (hask.shallow body.id).widen

omit h in
theorem shallow_identifierType (hglobals : v.globals.AreWidened) (id : NodeId) (text : String) :
    (v.identifierType ask id text).Shallow := by
  unfold identifierType
  split
  · exact shallow_of_isPlain rfl
  split
  · exact hask.shallow_getD _
  split
  · exact hask.shallow_getD _
  have hambient := shallow_ambient hglobals text
  split
  · exact hambient
  split
  · split
    · exact hask.shallow _
    · exact hambient
  · exact shallow_of_isPlain rfl
  · exact hambient

/-- There are no literals in the type of a parameter or of a name for a type. -/
theorem widened_computeType (hkind : n.kind.isWidening = true) : (v.computeType ask n).Widened := by
  obtain ⟨l, k⟩ := n
  change k.isWidening = true at hkind
  cases k with
  | typeAlias name type => exact hask.widened_writtenType h type
  | parameter name type? init? =>
    match type?, init? with
    | some type, _ => exact hask.widened_writtenType h type
    | none, some init => exact (hask.shallow init.id).widen
    | none, none => exact Ty.widened_of_isPlain rfl rfl
  | _ => cases hkind

/-- In the type of a node literals are near the top when they are in the answers. -/
theorem shallow_computeType (hglobals : v.globals.AreWidened) (hn : n ∈ v.tree.root.nodes) :
    (v.computeType ask n).Shallow := by
  have hchildren : ∀ c ∈ n.children, c ∈ v.tree.root.nodes := fun c hc =>
    Node.nodes_subset_of_mem_nodes hn (Node.nodes_subset_of_mem_children hc c.mem_nodes_self)
  by_cases hkind : n.kind.isWidening = true
  · exact .widened (hask.widened_computeType h hkind)
  obtain ⟨l, k⟩ := n
  change ∀ c ∈ (k.map Ident.toNode fun n => n).children, _ at hchildren
  cases k with
  | parameter | typeAlias => exact absurd rfl hkind
  | numericLiteral text => exact shallow_of_isPlain (Ty.isPlain_ofNumeral text)
  | stringLiteral | trueLiteral | falseLiteral | nullLiteral => exact shallow_of_isPlain rfl
  | arrayLiteral elements =>
    cases elements with
    | nil =>
      refine .widened (Ty.widened_array_iff.mpr ?_)
      split <;> exact Ty.widened_of_isPlain rfl rfl
    | cons e es =>
      refine .widened (Ty.widened_array_iff.mpr (Ty.widened_unionOf ?_))
      exact List.forall_mem_map.mpr fun e _ => (hask.shallow e.id).widen
  | parenthesized expr => exact hask.shallow expr.id
  | identifier text => exact hask.shallow_identifierType hglobals l.id text
  | variableDeclaration name type? init? =>
    match type?, init? with
    | some type, _ => exact .widened (hask.widened_writtenType h type)
    | none, some init =>
      show Ty.Shallow (if _ then _ else _)
      split
      · exact (hask.shallow init.id).widenNullish
      · exact .widened (hask.shallow init.id).widen
    | none, none => exact shallow_of_isPlain rfl
  | functionDeclaration name params returnType? body =>
    refine .widened (hask.widened_functionType h params (fun p hp => hchildren p ?_) returnType? body)
    simp [Kind.map, Kind.children, hp]
  | arrowFunction params returnType? body =>
    refine .widened (hask.widened_functionType h params (fun p hp => hchildren p ?_) returnType? body)
    simp [Kind.map, Kind.children, hp]
  | call callee args =>
    simp only [computeType, Node.kind_mk]
    split
    · rename_i params ret hcallee
      exact .widened (widened_result (hcallee ▸ hask.shallow callee.id))
    · exact shallow_of_isPlain rfl
  | propertyAccess object name => exact shallow_memberType (hask.shallow object.id) name.text
  | prefixUnary op operand => cases op <;> exact shallow_of_isPlain rfl
  | binary op left right => exact hask.shallow_binaryType op left.id right.id
  | keywordType | typeReference | arrayType | unionType => exact .widened (hask.widened_writtenType h _)
  | sourceFile | variableStatement | block | expressionStatement | returnStatement | ifStatement
  | whileStatement | emptyStatement => exact shallow_of_isPlain rfl

end

/-- The types of nodes are such answers, whichever nodes are in progress. -/
theorem typeWithin (h : v.IsBound) (hglobals : v.globals.AreWidened) (fuel : Nat) (path : IdSet) :
    v.Tells (v.typeWithin fuel path) := by
  induction fuel generalizing path with
  | zero => exact ⟨fun _ => shallow_of_isPlain rfl, fun _ _ _ => Ty.widened_of_isPlain rfl rfl⟩
  | succ fuel ih =>
    constructor
    · intro id
      rw [View.typeWithin]
      split
      · exact shallow_of_isPlain rfl
      split
      · exact shallow_of_isPlain rfl
      · rename_i node hnode _
        exact (ih _).shallow_computeType h hglobals (h.numbered.node?_iff.mp hnode).1
    · intro n hn hkind
      rw [View.typeWithin, h.numbered.node?_iff.mpr ⟨hn, rfl⟩]
      dsimp only
      split
      · exact Ty.widened_of_isPlain rfl rfl
      · exact (ih _).widened_computeType h hkind

theorem typeAt (h : v.IsBound) (hglobals : v.globals.AreWidened) : v.Tells v.typeAt :=
  typeWithin h hglobals _ _

end Tells

/-! ### What is shown -/

theorem hasLiteral_eq_false {t : Ty} (h : t.Widened) : hasLiteral t = false := by
  unfold hasLiteral
  split
  · refine List.any_eq_false.mpr fun u hu => ?_
    simp [(Ty.widened_union_iff.mp h u hu).isLiteral_eq]
  · exact h.isLiteral_eq

end View

/-- A report about types shows two different ones, and does not say of one text that it is not assignable to
itself. -/
structure Diagnostic.ShowsDifferentTypes (d : Diagnostic) : Prop where
  display_ne : ∃ source target, d.cause = .notAssignable source target ∧ source.display ≠ target.display
  message_ne : ∀ text : String, d.cause.message ≠ "Type '" ++ text ++ "' is not assignable to type '" ++ text ++ "'."

/-- Between apostrophes a text without them is known from the sentence: where the same text stands in both places,
the two that were put there are the same. -/
theorem eq_of_between_apostrophes {s t text middle rest : List Char} (hs : '\'' ∉ s) (ht : '\'' ∉ t)
    (h : s ++ '\'' :: (middle ++ (t ++ '\'' :: rest)) = text ++ '\'' :: (middle ++ (text ++ '\'' :: rest))) :
    s = t := by
  have htext : '\'' ∉ text := by
    have hcount := congrArg (List.count '\'') h
    simp only [List.count_append, List.count_cons_self, List.count_eq_zero_of_not_mem hs,
      List.count_eq_zero_of_not_mem ht] at hcount
    exact List.count_eq_zero.mp (by omega)
  have hbreak : ∀ r : List Char, ∀ c ∈ ('\'' :: r).head?, (c != '\'') = false := by simp
  have hnot : ∀ {w : List Char}, '\'' ∉ w → ∀ c ∈ w, (c != '\'') = true := fun hw c hc =>
    bne_iff_ne.mpr (ne_of_mem_of_not_mem hc hw)
  obtain ⟨rfl, hrest⟩ := word_append_inj (hnot hs) (hnot htext) (hbreak _) (hbreak _) h
  have hrest := List.append_cancel_left (List.cons.inj hrest).2
  exact (word_append_inj (hnot ht) (hnot htext) (hbreak _) (hbreak _) hrest).1.symm

/-- Types that are written differently and without an apostrophe are shown as different ones. -/
theorem Diagnostic.showsDifferentTypes_of_ne {d : Diagnostic} {source target : Ty}
    (hcause : d.cause = .notAssignable source target) (hne : source.display ≠ target.display)
    (hsource : '\'' ∉ source.chars) (htarget : '\'' ∉ target.chars) : d.ShowsDifferentTypes := by
  refine ⟨⟨source, target, hcause, hne⟩, fun text hmessage => hne ?_⟩
  have hmiddle : "' is not assignable to type '".toList = '\'' :: " is not assignable to type '".toList := by simp
  have hend : "'.".toList = '\'' :: ['.'] := rfl
  have hsentence : (Cause.notAssignable source target).message =
    "Type '" ++ source.display ++ "' is not assignable to type '" ++ target.display ++ "'." := rfl
  have hchars := congrArg String.toList (hsentence.symm.trans (hcause ▸ hmessage))
  simp only [String.toList_append, List.append_assoc] at hchars
  rw [hmiddle, hend] at hchars
  exact String.toList_inj.mp (eq_of_between_apostrophes hsource htarget (List.append_cancel_left hchars))

namespace View.IsBound

variable {v : View} (h : v.IsBound) {libs : List Config.Lib} (hglobals : v.globals = .ofLibs libs)
  {value type : Node Place} {span : Span}

include h hglobals

theorem tells_typeAt : v.Tells v.typeAt := Tells.typeAt h (hglobals ▸ Globals.areWidened_ofLibs libs)

/-- No literal is shown: the type of the value is widened, since there is none in a written type. -/
theorem shownType_eq : v.shownType value type = (v.typeAt value.id).widen true := by
  have hwritten := (h.tells_typeAt hglobals).widened_writtenType h type
  rw [shownType, hasLiteral_eq_false hwritten, if_neg Bool.false_ne_true]

/-- What does not fit is shown as a type other than the written one. -/
theorem shownType_ne (hfits : v.fits value type = false) :
    v.shownType value type ≠ v.writtenType v.typeAt type := by
  have hmembers : ∀ ts, v.typeAt value.id = .union ts → ∀ u ∈ ts, ∀ us, u ≠ .union us := by
    intro ts htype u hu
    have hvalue := normal_typeAt (v := v) (hglobals ▸ Globals.areNormal_ofLibs libs) value.id
    rw [htype] at hvalue
    exact ((Ty.normal_union_iff.mp hvalue).1.settled.isMember u hu).ne_union
  intro heq
  have hassignable : (v.typeAt value.id).assignable v.strict ((v.typeAt value.id).widen true) = true :=
    Ty.assignable_widen_true hmembers
  rw [← h.shownType_eq hglobals, heq] at hassignable
  exact Bool.false_ne_true (hfits.symm.trans hassignable)

/-- The report about a value that does not fit shows different types. -/
theorem showsDifferentTypes_mismatch (hfits : v.fits value type = false) :
    (v.mismatch value type span).ShowsDifferentTypes := by
  have htells := h.tells_typeAt hglobals
  have hnormal : v.globals.AreNormal v.strict := hglobals ▸ Globals.areNormal_ofLibs libs
  have hwritten := htells.widened_writtenType h type
  have hshown : (v.shownType value type).Widened := by
    rw [h.shownType_eq hglobals]
    exact (htells.shallow value.id).widen
  -- the types are told apart: they are normal, and their objects are those of the environment
  have hwrittenDisplay : (v.writtenType v.typeAt type).Displayable v.globals := by
    refine hwritten.displayable ((keeps_normal hnormal).writtenType (normal_typeAt hnormal) type) ?_
    have hknows := keeps_knows h.globals
    exact hknows.writtenType hknows.typeAt type
  have hshownDisplay : (v.shownType value type).Displayable v.globals := by
    have hknows : v.globals.Knows ((v.typeAt value.id).widen true) := ((keeps_knows h.globals).typeAt value.id).widen
    have hshownNormal := (normal_typeAt hnormal value.id).strictly.widen
    rw [← h.shownType_eq hglobals] at hknows hshownNormal
    exact hshown.displayable hshownNormal hknows
  rw [hglobals] at hwrittenDisplay hshownDisplay
  refine Diagnostic.showsDifferentTypes_of_ne rfl (fun hdisplay => ?_) (hshownDisplay.apostrophe_notMem_chars hshown)
    (hwrittenDisplay.apostrophe_notMem_chars hwritten)
  exact h.shownType_ne hglobals hfits (hshownDisplay.eq_of_display_eq hwrittenDisplay hdisplay)

end View.IsBound

/-- The reports about types in the files of the program show different types. -/
def Program.ShowsDifferentTypes (p : Program) : Prop :=
  ∀ path, ∀ d ∈ p.semanticDiagnostics path, d.cause.code = 2322 → d.ShowsDifferentTypes

/-- **No report contradicts itself**: whatever the texts and the options are, every report that a type is not
assignable to another one shows two different types. -/
theorem Program.showsDifferentTypes_ofFiles (options : Config.Options) (texts : List (String × String)) :
    (ofFiles options (texts.map fun t => ProgramFile.ofText t.1 t.2)).ShowsDifferentTypes := by
  intro path d hd hcode
  rw [semanticDiagnostics] at hd
  split at hd
  · rename_i file hfile
    have hbound := isBound_ofFiles options texts hfile
    obtain ⟨value, type, span, -, hfits, rfl⟩ := hbound.mem_semanticDiagnostics_iff.mp ⟨hd, hcode⟩
    exact hbound.showsDifferentTypes_mismatch rfl hfits
  · exact absurd hd List.not_mem_nil

end Semantics

end ScriptAnalysis
