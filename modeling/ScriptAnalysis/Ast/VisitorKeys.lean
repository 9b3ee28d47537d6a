/-!
# Visitor keys

Which properties of a node of a common tree hold its children, by the name of its kind. The table is
the one that walkers of such trees share, and so it also names properties that no node of this
language has.
-/

namespace ScriptAnalysis.Ast

/-- The properties that hold children, in the order a walker takes them; a name of no kind has none. -/
def visitorKeys : String → List String
  | "Program" | "BlockStatement" => ["body"]
  | "VariableDeclaration" => ["declarations"]
  | "VariableDeclarator" => ["id", "init"]
  | "FunctionDeclaration" => ["id", "typeParameters", "params", "returnType", "body"]
  | "ArrowFunctionExpression" => ["typeParameters", "params", "returnType", "body"]
  | "TSTypeAliasDeclaration" => ["id", "typeParameters", "typeAnnotation"]
  | "ExpressionStatement" => ["expression"]
  | "ReturnStatement" | "UnaryExpression" => ["argument"]
  | "IfStatement" => ["test", "consequent", "alternate"]
  | "WhileStatement" => ["test", "body"]
  | "Identifier" => ["decorators", "typeAnnotation"]
  | "ArrayExpression" => ["elements"]
  | "CallExpression" => ["callee", "typeArguments", "arguments"]
  | "MemberExpression" => ["object", "property"]
  | "BinaryExpression" | "LogicalExpression" | "AssignmentExpression" => ["left", "right"]
  | "AssignmentPattern" => ["decorators", "left", "right", "typeAnnotation"]
  | "TSTypeAnnotation" => ["typeAnnotation"]
  | "TSTypeReference" => ["typeName", "typeArguments"]
  | "TSArrayType" => ["elementType"]
  | "TSUnionType" => ["types"]
  | _ => []

end ScriptAnalysis.Ast
