import ScriptAnalysis.Proofs.Semantics.Kept
import ScriptAnalysis.Proofs.Types.Normal

/-!
# The types of nodes are normal

Every type that a program gives a node of a file is normal (`View.normal_typeAt_ofFiles`). The types of the
names of the environment are (`Globals.areNormal_ofLibs`), and each way of putting the type of a node
together keeps to normal types (`View.keeps_normal`).
-/

namespace ScriptAnalysis.Semantics

open Syntax

variable {strict : Bool}

/-! ### The names of the environment -/

/-- The types in what a name of the environment is are normal. -/
def Ambient.IsNormal (strict : Bool) : Ambient → Prop
  | value type => type.Normal strict
  | object _ members => ∀ m ∈ members, m.2.Normal strict

/-- The types of the names of the environment are normal. -/
def Globals.AreNormal (strict : Bool) (globals : Globals) : Prop := ∀ g ∈ globals.all, g.type.Normal strict

theorem Ambient.isNormal_of_mem : ∀ e ∈ language ++ document, e.2.IsNormal strict := by
  simp [-Prod.forall, language, document, console, IsNormal, unaryMath, variadicMath, print, required, optional,
    rest]

namespace Globals

theorem AreNormal.define {globals : Globals} (h : globals.AreNormal strict) {entry : String × Ambient}
    (hentry : entry.2.IsNormal strict) : (globals.define entry).AreNormal strict := by
  rw [Globals.define]
  split
  · exact h
  · split
    · rename_i type htype
      rw [htype] at hentry
      exact List.forall_mem_append.mpr ⟨h, List.forall_mem_singleton.mpr hentry⟩
    · rename_i typeName members htype
      rw [htype] at hentry
      exact List.forall_mem_append.mpr
        ⟨h, List.forall_mem_singleton.mpr (Ty.normal_object_iff.mpr hentry)⟩

theorem areNormal_ofLibs (libs : List Config.Lib) : (ofLibs libs).AreNormal strict :=
  induction_ofLibs libs (List.forall_mem_singleton.mpr Ty.normal_undefined)
    fun _ h e he => h.define (Ambient.isNormal_of_mem e he)

end Globals

/-! ### The types of nodes -/

namespace View

variable {v : View}

theorem keeps_normal (hglobals : v.globals.AreNormal v.strict) : v.Keeps (Ty.Normal v.strict) where
  plain t ht := by cases t <;> first | exact absurd ht Bool.false_ne_true | simp
  array _ ht := Ty.normal_array_iff.mpr ht
  function _ _ hparams hret := Ty.normal_function_iff.mpr ⟨hparams, hret⟩
  result _ _ h := (Ty.normal_function_iff.mp h).2
  member _ _ _ h := Ty.normal_object_iff.mp h
  union _ h := Ty.normal_unionOf h
  widen _ ht := ht.widen
  globals := hglobals

theorem normal_typeAt (hglobals : v.globals.AreNormal v.strict) (id : NodeId) : (v.typeAt id).Normal v.strict :=
  (keeps_normal hglobals).typeAt id

/-- **The types of the nodes of a file are normal**, whatever the options and the files of the program
are. -/
theorem normal_typeAt_ofFiles (options : Config.Options) (files : List ProgramFile) (tree : Tree)
    (id : NodeId) :
    ((View.ofProgram (Program.ofFiles options files) tree).typeAt id).Normal options.strictNullChecks :=
  normal_typeAt (v := View.ofProgram (Program.ofFiles options files) tree) (Globals.areNormal_ofLibs _) id

end View

end ScriptAnalysis.Semantics
