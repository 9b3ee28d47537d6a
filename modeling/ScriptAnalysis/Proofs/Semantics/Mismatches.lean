import ScriptAnalysis.Proofs.Names.Kinds
import ScriptAnalysis.Proofs.Semantics.Returns
import ScriptAnalysis.Proofs.Semantics.SymbolTypes

/-!
# Values that do not fit

A value is compared with a written type in three places: where a variable or a parameter starts with it, where a
return gives it back and where it is assigned to a variable (`View.Expects`). The reports about types that do not fit
are those of these places, no more and no fewer (`View.IsBound.mem_semanticDiagnostics_iff`). A function without a
block returns its body too, but that is none of the places: such a value is never compared with the written type
(`checksReturns_ofFiles`).
-/

namespace ScriptAnalysis.Semantics

open Syntax

namespace View

variable {v : View} {n value type : Node Place} {span : Span} {d : Diagnostic}

/-! ### Places where a type is expected -/

/-- The value is to have the written type, and where it does not this is reported at the span. -/
inductive Expects (v : View) : Node Place → Node Place → Span → Prop where
  /-- A variable or a parameter starts with the value. -/
  | declared {n type init : Node Place} {name : Ident Place} (hn : n ∈ v.tree.root.nodes)
      (hkind : n.kind = .variableDeclaration name (some type) (some init) ∨
        n.kind = .parameter name (some type) (some init)) : Expects v init type name.span
  /-- A return gives the value back. -/
  | returned {n f type expr : Node Place} (hn : n ∈ v.tree.root.nodes)
      (hkind : n.kind = .returnStatement (some expr)) (hf : v.tree.NearestFunction n.id f)
      (htype : writtenReturnType? f = some type) : Expects v expr type expr.span
  /-- The value is assigned to a variable that is no constant. -/
  | assigned {n type left right : Node Place} {binding : Binding} {symbol : Symbol} (hn : n ∈ v.tree.root.nodes)
      (hkind : n.kind = .binary .assign left right) (hbinding : v.binding? = some binding)
      (hsymbol : binding.resolvedSymbol? left.id = some symbol) (hconstant : symbol.kind ≠ .constant)
      (htype : symbol.firstDeclaration?.bind v.writtenVariableType? = some type) :
      Expects v right type left.span

/-- Whether the type of the value fits the written one. -/
def fits (v : View) (value type : Node Place) : Bool :=
  (v.typeAt value.id).assignable v.strict (v.writtenType v.typeAt type)

/-- The type that is shown for a value: with literals only where the written type has some. -/
def shownType (v : View) (value type : Node Place) : Ty :=
  if hasLiteral (v.writtenType v.typeAt type) then v.typeAt value.id else (v.typeAt value.id).widen true

/-- The report that the value does not fit the written type. -/
def mismatch (v : View) (value type : Node Place) (span : Span) : Diagnostic :=
  { cause := .notAssignable (v.shownType value type) (v.writtenType v.typeAt type), span }

theorem mem_assignmentReport_iff :
    d ∈ v.assignmentReport value.id type span ↔ v.fits value type = false ∧ d = v.mismatch value type span := by
  rw [assignmentReport, fits]
  dsimp only
  split
  · rename_i h
    simp [h]
  · rename_i h
    rw [List.mem_singleton, and_iff_right (Bool.eq_false_iff.mpr h)]
    rfl

/-! ### All reports about types -/

theorem code_of_mem_unreachableReports {body : List (Node Place)} (h : d ∈ v.unreachableReports body) :
    d.cause.code = 7027 := by
  unfold unreachableReports at h
  dsimp only at h
  split at h
  · exact absurd h List.not_mem_nil
  · obtain rfl := List.mem_singleton.mp h
    rfl
  · obtain rfl := List.mem_singleton.mp h
    rfl
  · exact absurd h List.not_mem_nil

theorem code_ne_of_conflict? {name : String} {old new : SymbolKind} {cause : Cause}
    (h : Binding.conflict? name old new = some cause) : cause.code ≠ 2322 := by
  unfold Binding.conflict? at h
  split at h
  · cases h
  split at h
  · cases h
    decide
  split at h
  · cases h
    simp [Cause.code]
  · cases h
    simp [Cause.code]

namespace IsBound

variable (h : v.IsBound)

include h

theorem numbered : v.tree.Numbered := by
  obtain ⟨path, text, htree⟩ := h.tree
  rw [htree]
  exact Tree.numbered_parse path text

/-- A report about a node that is one about types comes from a place where a type is expected. -/
theorem expects_of_mem_nodeReports (hn : n ∈ v.tree.root.nodes) (hd : d ∈ v.nodeReports (.ofTree v.tree) n)
    (hcode : d.cause.code = 2322) :
    ∃ value type span, v.Expects value type span ∧ v.fits value type = false ∧ d = v.mismatch value type span := by
  unfold nodeReports at hd
  split at hd
  · rename_i hkind
    exact ⟨_, _, _, .declared hn (.inl hkind), mem_assignmentReport_iff.mp hd⟩
  · rename_i hkind
    exact ⟨_, _, _, .declared hn (.inr hkind), mem_assignmentReport_iff.mp hd⟩
  · split at hd
    · obtain rfl := List.mem_singleton.mp hd
      exact absurd hcode (by simp [Cause.code])
    · exact absurd hd List.not_mem_nil
  · rename_i hkind
    split at hd
    · rename_i htype
      obtain ⟨f, hf, htype⟩ := Option.bind_eq_some_iff.mp htype
      have hnearest := (enclosingFunction?_iff h.numbered hn (isReturn_iff.mpr ⟨_, hkind⟩)).mp hf
      exact ⟨_, _, _, .returned hn hkind hnearest htype, mem_assignmentReport_iff.mp hd⟩
    · exact absurd hd List.not_mem_nil
  · rename_i hkind
    split at hd
    · unfold assignmentReports at hd
      split at hd
      · exact absurd hd List.not_mem_nil
      · rename_i hsymbol
        split at hd
        · obtain rfl := List.mem_singleton.mp hd
          exact absurd hcode (by simp [Cause.code])
        · rename_i hconstant
          split at hd
          · rename_i htype _
            exact ⟨_, _, _, .assigned hn hkind h.binding hsymbol hconstant htype, mem_assignmentReport_iff.mp hd⟩
          · exact absurd hd List.not_mem_nil
    · exact absurd hd List.not_mem_nil
  · exact absurd hcode (by simp [code_of_mem_unreachableReports hd])
  · exact absurd hcode (by simp [code_of_mem_unreachableReports hd])
  · exact absurd hd List.not_mem_nil

/-- What does not fit where a type is expected is reported with its node. -/
theorem exists_mem_nodeReports (hexpects : v.Expects value type span) (hfits : v.fits value type = false) :
    ∃ n ∈ v.tree.root.nodes, v.mismatch value type span ∈ v.nodeReports (.ofTree v.tree) n := by
  have hreport : v.mismatch value type span ∈ v.assignmentReport value.id type span :=
    mem_assignmentReport_iff.mpr ⟨hfits, rfl⟩
  cases hexpects with
  | @declared n _ _ _ hn hkind =>
    refine ⟨n, hn, ?_⟩
    rcases hkind with hkind | hkind <;> rw [nodeReports, hkind] <;> exact hreport
  | @returned n _ _ _ hn hkind hf htype =>
    refine ⟨n, hn, ?_⟩
    have hclosest := (enclosingFunction?_iff h.numbered hn (isReturn_iff.mpr ⟨_, hkind⟩)).mpr hf
    rw [nodeReports, hkind]
    dsimp only
    rw [hclosest, Option.bind_some, htype]
    exact hreport
  | @assigned n _ _ _ _ _ hn hkind hbinding hsymbol hconstant htype =>
    obtain rfl := Option.some.inj (h.binding.symm.trans hbinding)
    refine ⟨n, hn, ?_⟩
    rw [nodeReports, hkind]
    dsimp only
    rw [if_pos (by rfl), assignmentReports, hsymbol]
    dsimp only
    rw [if_neg hconstant, htype]
    exact hreport

/-- **The reports about types that do not fit** are those of the places where a type is expected. -/
theorem mem_semanticDiagnostics_iff : d ∈ v.semanticDiagnostics ∧ d.cause.code = 2322 ↔
    ∃ value type span, v.Expects value type span ∧ v.fits value type = false ∧ d = v.mismatch value type span := by
  rw [semanticDiagnostics, h.binding]
  dsimp only
  rw [Diagnostic.inOrder, List.mem_mergeSort, List.mem_append, List.mem_append, List.mem_flatMap]
  constructor
  · rintro ⟨(hconflict | hname) | ⟨e, he, hd⟩, hcode⟩
    · obtain ⟨name, old, new, hcause⟩ := h.isRead.exists_conflict hconflict
      exact absurd hcode (code_ne_of_conflict? hcause)
    · obtain ⟨i, -, rfl⟩ := List.mem_map.mp hname
      exact absurd hcode (by simp [notFoundReport, Cause.code])
    · refine h.expects_of_mem_nodeReports ?_ hd hcode
      rw [← h.numbered.map_node_entries]
      exact List.mem_map_of_mem he
  · rintro ⟨value, type, span, hexpects, hfits, rfl⟩
    obtain ⟨n, hn, hd⟩ := h.exists_mem_nodeReports hexpects hfits
    rw [← h.numbered.map_node_entries] at hn
    obtain ⟨e, he, rfl⟩ := List.mem_map.mp hn
    exact ⟨.inr ⟨e, he, hd⟩, rfl⟩

end IsBound

/-! ### What functions are to return -/

/-- The function returns the value: a return gives it back whose nearest function it is, or it is the body. -/
inductive Returns (v : View) (f : Node Place) : Node Place → Prop where
  /-- A return gives the value back. -/
  | statement {n expr : Node Place} (hn : n ∈ v.tree.root.nodes) (hkind : n.kind = .returnStatement (some expr))
      (hf : v.tree.NearestFunction n.id f) : Returns v f expr
  /-- The value is the body. -/
  | body {params : List (Node Place)} {returnType? : Option (Node Place)} {body : Node Place}
      (hkind : f.kind = .arrowFunction params returnType? body) (hexpression : body.kind.isBlock = false) :
      Returns v f body

/-- A value that does not fit the type that is written for what its function returns is reported where it stands. -/
def EnforcesReturnTypes (v : View) : Prop :=
  ∀ f ∈ v.tree.root.nodes, ∀ type value, writtenReturnType? f = some type → v.Returns f value →
    v.fits value type = false → ∃ d ∈ v.semanticDiagnostics, d.cause.code = 2322 ∧ d.span = value.span

/-- Whether a function has a body that is no block and does not fit the type that is written for it. -/
def returnsMisfit (v : View) (f : Node Place) : Bool :=
  match f.kind with
  | .arrowFunction _ (some type) body => !body.kind.isBlock && !v.fits body type
  | _ => false

/-- Where nothing is reported, a body that does not fit is against it. -/
theorem not_enforcesReturnTypes_of_misfit (hreports : v.semanticDiagnostics = []) {f : Node Place}
    (hf : f ∈ v.tree.root.nodes) (hmisfit : v.returnsMisfit f = true) : ¬ v.EnforcesReturnTypes := by
  intro h
  unfold returnsMisfit at hmisfit
  split at hmisfit
  · rename_i hkind
    obtain ⟨hblock, hfits⟩ := Bool.and_eq_true_iff.mp hmisfit
    rw [Bool.not_eq_true'] at hblock hfits
    obtain ⟨d, hd, -⟩ := h f hf _ _ (by rw [writtenReturnType?, hkind]) (.body hkind hblock) hfits
    rw [hreports] at hd
    exact absurd hd List.not_mem_nil
  · cases hmisfit

/-- The body of a function without a block is not compared with the written type. -/
theorem not_enforcesReturnTypes_arrow :
    ¬ (ofProgram (.ofFiles {} [.ofText "/file.ts" "const f = (): number => \"a\";"])
      (.parse "/file.ts" "const f = (): number => \"a\";")).EnforcesReturnTypes := by
  have hmisfit : ∃ f ∈ (Tree.parse "/file.ts" "const f = (): number => \"a\";").root.nodes,
      (ofProgram (.ofFiles {} [.ofText "/file.ts" "const f = (): number => \"a\";"])
        (.parse "/file.ts" "const f = (): number => \"a\";")).returnsMisfit f = true := by
    decide +kernel
  obtain ⟨f, hf, hmisfit⟩ := hmisfit
  exact not_enforcesReturnTypes_of_misfit (by decide +kernel) hf hmisfit

/-- Which returned values are compared with the type that is written for them. -/
structure ChecksReturns (v : View) : Prop where
  /-- What a return gives back and does not fit is reported where it stands. -/
  statement : ∀ f type n expr, writtenReturnType? f = some type → n ∈ v.tree.root.nodes →
    n.kind = .returnStatement (some expr) → v.tree.NearestFunction n.id f → v.fits expr type = false →
    v.mismatch expr type expr.span ∈ v.semanticDiagnostics
  /-- The body of a function without a block is compared with nothing. -/
  body : ∀ f ∈ v.tree.root.nodes, ∀ params returnType? body, f.kind = .arrowFunction params returnType? body →
    body.kind.isBlock = false → ∀ type span, ¬ v.Expects body type span
  /-- Nothing else is reported about types. -/
  reports : ∀ d, d ∈ v.semanticDiagnostics ∧ d.cause.code = 2322 ↔
    ∃ value type span, v.Expects value type span ∧ v.fits value type = false ∧ d = v.mismatch value type span

/-- A value that is to have a type is a child of a node that is no function. -/
theorem Expects.exists_parent (h : v.Expects value type span) :
    ∃ n ∈ v.tree.root.nodes, value ∈ n.children ∧ n.kind.isFunctionLike = false := by
  cases h with
  | @declared n type init name hn hkind =>
    refine ⟨n, hn, ?_⟩
    obtain ⟨l, k⟩ := n
    rcases hkind with rfl | rfl <;> exact ⟨by simp [Node.children, Node.shape, Kind.map, Kind.children], rfl⟩
  | @returned n f type expr hn hkind =>
    refine ⟨n, hn, ?_⟩
    obtain ⟨l, k⟩ := n
    obtain rfl : k = .returnStatement (some value) := hkind
    exact ⟨List.mem_singleton_self _, rfl⟩
  | @assigned n type left right binding symbol hn hkind =>
    refine ⟨n, hn, ?_⟩
    obtain ⟨l, k⟩ := n
    obtain rfl : k = .binary .assign left value := hkind
    exact ⟨List.mem_cons_of_mem _ (List.mem_singleton_self _), rfl⟩

theorem IsBound.checksReturns (h : v.IsBound) : v.ChecksReturns where
  statement f type n expr htype hn hkind hf hfits :=
    (h.mem_semanticDiagnostics_iff.mpr ⟨_, _, _, .returned hn hkind hf htype, hfits, rfl⟩).1
  body f hf params returnType? body hkind _ type span hexpects := by
    obtain ⟨n, hn, hchild, hno⟩ := hexpects.exists_parent
    have hbody : body ∈ f.children := Node.mem_children_of_body? (by rw [hkind]; rfl)
    -- a node has one parent
    have hid := Option.some.inj ((h.numbered.parent?_id hn hchild).symm.trans (h.numbered.parent?_id hf hbody))
    rw [h.numbered.eq_of_id_eq hn hf hid, hkind] at hno
    cases hno
  reports _ := h.mem_semanticDiagnostics_iff

end View

/-- In every file of the program returned values are compared with written types so far. -/
def Program.ChecksReturns (p : Program) : Prop :=
  ∀ path file, p.file? path = some file → (View.ofProgram p file.tree).ChecksReturns

/-- **What return statements give back is compared with the written type**, and nothing else that functions
return is, whatever the texts and the options are. -/
theorem Program.checksReturns_ofFiles (options : Config.Options) (texts : List (String × String)) :
    (ofFiles options (texts.map fun t => ProgramFile.ofText t.1 t.2)).ChecksReturns :=
  fun _ _ h => (isBound_ofFiles options texts h).checksReturns

end ScriptAnalysis.Semantics
