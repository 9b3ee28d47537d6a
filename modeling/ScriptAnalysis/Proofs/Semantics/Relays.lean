import ScriptAnalysis.Proofs.Semantics.Questions

/-!
# Nodes that relay the type of another node

Where declarations refer to each other in a circle, the type of a node depends on the node that was asked for
first: the types of the nodes in progress are cut off to `any`. A reference only asks for its declaration and a
member access only for its object, and both are `any` when what they ask for is. Whether such a node is in
progress makes no difference to anything that is asked while the other node is (`View.typeWithin_insert`): who
comes back to it would have been cut off one question later. So the type of the node is made of the type
that the other has when it is asked for on its own (`View.exists_ask_of_relays`).
-/

namespace ScriptAnalysis.Semantics

open Syntax

namespace IdSet

variable {s : IdSet} {a b : Nat}

theorem contains_insert_self (s : IdSet) (a : Nat) : (s.insert a).contains a = true := by simp

theorem contains_insert_of_contains (h : s.contains b = true) : (s.insert a).contains b = true := by
  rw [contains_insert, h, Bool.true_or]

theorem contains_insert_of_ne (h : b ≠ a) : (s.insert a).contains b = s.contains b := by
  rw [contains_insert, beq_false_of_ne h.symm, Bool.or_false]

theorem insert_comm (s : IdSet) (a b : Nat) : (s.insert a).insert b = (s.insert b).insert a :=
  ext_contains fun c => by
    rw [contains_insert, contains_insert, contains_insert, contains_insert]
    exact Bool.or_right_comm ..

end IdSet

namespace View

variable {v : View} {q d : NodeId} {node : Node Place} {path : IdSet}

/-- The type of `q` is `any` whenever the type that it is told for `d` is. -/
def Relays (v : View) (q d : NodeId) : Prop :=
  ∀ node, v.tree.node? q = some node → ∀ ask : NodeId → Ty, ask d = .any → v.computeType ask node = .any

/-- A node in progress has type `any`. -/
theorem typeWithin_of_contains (h : path.contains d = true) (n : Nat) : v.typeWithin n path d = .any := by
  cases n with
  | zero => rfl
  | succ n =>
    rw [typeWithin]
    split
    · rfl
    · rw [if_pos h]

/-- While `d` is in progress it makes no difference whether a node that relays it is. -/
theorem typeWithin_insert (hrelays : v.Relays q d) (hd : path.contains d = true) (n : Nat) :
    v.typeWithin n (path.insert q) = v.typeWithin n path := by
  induction n generalizing path with
  | zero => rfl
  | succ n ih =>
    funext m
    rw [typeWithin, typeWithin]
    cases hnode : v.tree.node? m with
    | none => rfl
    | some node =>
      dsimp only
      by_cases hpath : path.contains m = true
      · rw [if_pos hpath, if_pos (IdSet.contains_insert_of_contains hpath)]
      rw [if_neg hpath]
      by_cases hmq : m = q
      · -- `q` is cut off on the left and asks for `d` on the right
        subst hmq
        rw [if_pos (IdSet.contains_insert_self path m)]
        exact (hrelays node hnode _ (typeWithin_of_contains (IdSet.contains_insert_of_contains hd) n)).symm
      · rw [IdSet.contains_insert_of_ne hmq, if_neg hpath, IdSet.insert_comm]
        exact congrArg (v.computeType · node) (ih (IdSet.contains_insert_of_contains hd))

/-- A node that relays `d` makes no difference to the type of `d`. -/
theorem typeWithin_insert_self (hrelays : v.Relays q d) (n : Nat) (path : IdSet) :
    v.typeWithin n (path.insert q) d = v.typeWithin n path d := by
  cases n with
  | zero => rfl
  | succ n =>
    rw [typeWithin, typeWithin]
    cases hnode : v.tree.node? d with
    | none => rfl
    | some node =>
      dsimp only
      by_cases hpath : path.contains d = true
      · rw [if_pos hpath, if_pos (IdSet.contains_insert_of_contains hpath)]
      rw [if_neg hpath]
      by_cases hdq : d = q
      · subst hdq
        rw [if_pos (IdSet.contains_insert_self path d)]
        exact (hrelays node hnode _ (typeWithin_of_contains (IdSet.contains_insert_self path d) n)).symm
      · rw [IdSet.contains_insert_of_ne hdq, if_neg hpath, IdSet.insert_comm,
          typeWithin_insert hrelays (IdSet.contains_insert_self path d)]

/-- The type of a node is computed while the node is in progress. -/
theorem typeAt_eq_computeType (hnode : v.tree.node? q = some node) :
    v.typeAt q = v.computeType (v.typeWithin v.tree.size (IdSet.empty.insert q)) node := by
  rw [typeAt, typeWithin, hnode]
  dsimp only
  rw [IdSet.contains_empty, if_neg Bool.false_ne_true]

/-- **A node that relays another one** is told the type that the other has on its own. -/
theorem exists_ask_of_relays (hnode : v.tree.node? q = some node) (hrelays : v.Relays q d) :
    ∃ ask : NodeId → Ty, ask d = v.typeAt d ∧ v.typeAt q = v.computeType ask node := by
  refine ⟨_, ?_, typeAt_eq_computeType hnode⟩
  obtain ⟨e, he, -⟩ := Option.map_eq_some_iff.mp hnode
  have hfree := v.freeCount_insert_lt (Array.getElem?_eq_some_iff.mp he).1 (IdSet.contains_empty q)
  have hsize := v.freeCount_le .empty
  rw [v.typeWithin_eq (m := v.tree.size + 1) (by omega) (by omega), typeWithin_insert_self hrelays]
  rfl

/-- A node that has the type of another one in every circumstance has the type that the other has on its own. -/
theorem typeAt_eq_of_ask (hnode : v.tree.node? q = some node) (h : ∀ ask, v.computeType ask node = ask d) :
    v.typeAt q = v.typeAt d := by
  have hrelays : v.Relays q d := by
    intro node' hnode' ask hask
    rw [Option.some.inj (hnode'.symm.trans hnode), h, hask]
  obtain ⟨ask, hask, htype⟩ := exists_ask_of_relays hnode hrelays
  rw [htype, h, hask]

/-- The type of a member access is that of the member of the type of its object. -/
theorem typeAt_propertyAccess {object : Node Place} {name : Ident Place} (hnode : v.tree.node? q = some node)
    (hkind : node.kind = .propertyAccess object name) :
    v.typeAt q = memberType (v.typeAt object.id) name.text := by
  have hcompute : ∀ ask, v.computeType ask node = memberType (ask object.id) name.text := by
    intro ask
    rw [computeType, hkind]
  have hrelays : v.Relays q object.id := by
    intro node' hnode' ask hask
    rw [Option.some.inj (hnode'.symm.trans hnode), hcompute, hask]
    rfl
  obtain ⟨ask, hask, htype⟩ := exists_ask_of_relays hnode hrelays
  rw [htype, hcompute, hask]

end View

end ScriptAnalysis.Semantics
