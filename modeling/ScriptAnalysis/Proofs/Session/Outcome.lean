import ScriptAnalysis.Proofs.Session.History

/-!
# Answers do not depend on earlier requests

What a client can learn from an answer is its `Outcome`: the common tree with its tokens and comments,
the maps between both trees, the scopes, and the symbol and the type of every node. The other files of
the program take no part in it, and neither does what the session was asked before:
`map_outcome_parse_run` says that a session answers as a new one with the same configuration and
without files does.
-/

namespace ScriptAnalysis.Session

open Project (FileStore)
open Semantics (Program ProgramFile View)

/-- What can be learned from an answer. -/
structure Outcome where
  /-- The common tree with its tokens and comments. -/
  ast : Ast.Tree
  /-- The maps between the file's own tree and the common tree. -/
  maps : Ast.NodeMaps
  /-- The scopes. -/
  scopes : Scoping.ScopeGraph
  /-- The symbol that each node names. -/
  symbolAt? : Ast.NodeId → Option Semantics.Symbol
  /-- The type of each node. -/
  typeAt? : Ast.NodeId → Option Ty

/-- What can be learned from an answer. -/
def Answer.outcome (a : Answer) : Outcome :=
  ⟨a.ast, a.services.maps, a.scopes, a.services.symbolAt?, a.services.typeAt?⟩

/-- Services for one tree answer alike when the files are seen alike from their programs. -/
theorem outcome_congr {ast : Ast.Tree} {scopes : Scoping.ScopeGraph} {p q : Program}
    {tree : Syntax.Tree} {maps : Ast.NodeMaps} (h : View.ofProgram p tree = View.ofProgram q tree) :
    (Answer.mk ast scopes ⟨p, tree, maps⟩).outcome = (Answer.mk ast scopes ⟨q, tree, maps⟩).outcome := by
  have hsymbol : (Services.mk p tree maps).symbolAt? = (Services.mk q tree maps).symbolAt? := by
    funext node
    simp only [Services.symbolAt?, Services.view, h]
  have htype : (Services.mk p tree maps).typeAt? = (Services.mk q tree maps).typeAt? := by
    funext node
    simp only [Services.typeAt?, Services.view, h]
  simp only [Answer.outcome, hsymbol, htype]

/-- From programs with the same options and the same file under a path, the file is seen alike. -/
theorem view_congr {o : Config.Options} {files files' : List ProgramFile} {path text : String}
    (h : (Program.ofFiles o files).file? path = some (.ofText path text))
    (h' : (Program.ofFiles o files').file? path = some (.ofText path text)) :
    View.ofProgram (.ofFiles o files) (.parse path text) =
      View.ofProgram (.ofFiles o files') (.parse path text) := by
  have hname : (Syntax.Tree.parse path text).fileName = path := rfl
  simp only [View.ofProgram, hname, h, h']
  rfl

/-- What is learned about a file does not depend on the other files of the program. -/
theorem map_outcome_answer {o : Config.Options} {files files' : List ProgramFile}
    {path text : String} (h : (Program.ofFiles o files).file? path = some (.ofText path text))
    (h' : (Program.ofFiles o files').file? path = some (.ofText path text))
    (options : ParserOptions) :
    (answer (.ofFiles o files) path text options).map Answer.outcome =
      (answer (.ofFiles o files') path text options).map Answer.outcome := by
  rw [answer_eq h, answer_eq h']
  have hview := view_congr h h'
  cases Ast.Conversion.ofTree (.parse path text) { code := text, filePath := path } with
  | error e => rfl
  | ok conversion => exact congrArg Except.ok (outcome_congr hview)

/-- Sound sessions with the same options answer alike. -/
theorem map_outcome_parse {s t : Session} (hs : s.Sound) (ht : t.Sound)
    (h : s.environment.options = t.environment.options) (text : String) (options : ParserOptions) :
    (s.parse text options).1.map Answer.outcome = (t.parse text options).1.map Answer.outcome := by
  obtain ⟨files, hfile, hanswer, -⟩ := exists_parse hs text options
  obtain ⟨files', hfile', hanswer', -⟩ := exists_parse ht text options
  rw [h] at hfile hanswer
  rw [hanswer, hanswer', map_outcome_answer hfile hfile']

/-- A new session can be made with every configuration that a sound one has. -/
theorem exists_ofConfig {s : Session} (h : s.Sound) (store : FileStore) :
    ∃ fresh, ofConfig store s.environment.config = .ok fresh ∧
      fresh.environment.options = s.environment.options := by
  refine ⟨{ environment := { store, config := s.environment.config, options := s.environment.options } },
    ?_, rfl⟩
  simp only [ofConfig, Project.Environment.ofRoots, Project.Environment.create, h.environment.options]
  rfl

/-- **A session answers as a new one would.** After any requests, of which some may have failed, what is
learned from a request is what is learned from it in a new session with the present configuration over
an empty store; also when the request fails, it fails alike. -/
theorem map_outcome_parse_run {store : FileStore} {config : Config} {s : Session}
    (h : ofConfig store config = .ok s) (requests : List Request) (text : String)
    (options : ParserOptions) :
    ∃ fresh, ofConfig {} (s.run requests).environment.config = .ok fresh ∧
      ((s.run requests).parse text options).1.map Answer.outcome =
        (fresh.parse text options).1.map Answer.outcome := by
  have hs := sound_run h requests
  obtain ⟨fresh, hfresh, hoptions⟩ := exists_ofConfig hs {}
  exact ⟨fresh, hfresh, map_outcome_parse hs (of_ofConfig hfresh).1 hoptions.symm text options⟩

/-- Two files, a syntax error, a text given again and another configuration come before. -/
theorem map_outcome_parse_after_failure :
    ∃ s fresh : Session, ofConfig {} Table.empty = .ok s ∧
      let t := s.run [.parse "let a = 1;" {}, .parse "let" { filePath? := some "/b.ts" },
        .updateConfig (Table.ofList [("strict", .bool true)]), .parse "const a = null;" {}]
      ofConfig {} t.environment.config = .ok fresh ∧
        (t.parse "let b = null;" {}).1.map Answer.outcome =
          (fresh.parse "let b = null;" {}).1.map Answer.outcome := by
  obtain ⟨s, hnew⟩ : ∃ s, ofConfig {} Table.empty = .ok s := ⟨_, rfl⟩
  obtain ⟨fresh, hfresh, heq⟩ := map_outcome_parse_run hnew
    [.parse "let a = 1;" {}, .parse "let" { filePath? := some "/b.ts" },
      .updateConfig (Table.ofList [("strict", .bool true)]), .parse "const a = null;" {}]
    "let b = null;" {}
  exact ⟨s, fresh, hnew, hfresh, heq⟩

end ScriptAnalysis.Session
