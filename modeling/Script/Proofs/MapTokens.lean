import Script.Syntax.MapTokens

/-!
# Trees built anew

A tree whose tokens are changed by the function that changes nothing is the same tree: no kind of
node loses a field, a branch or a token, and holes stay where they are.
-/

namespace Script

namespace Expr

mutual

theorem mapTokens_id (e : Expr) : e.mapTokens id = e := by
  match e with
  | .hole | .number .. | .string .. | .boolean .. | .null .. | .ident .. => rfl
  | .negate operand t => rw [mapTokens, operand.mapTokens_id, id]
  | .binary op left right t => rw [mapTokens, left.mapTokens_id, right.mapTokens_id, id]
  | .assign target value t => rw [mapTokens, target.mapTokens_id, value.mapTokens_id, id]
  | .call callee args t => rw [mapTokens, callee.mapTokens_id, mapTokensAll_id args, id]
  | .method object name args t => rw [mapTokens, object.mapTokens_id, mapTokensAll_id args, id]
  | .member object property t => rw [mapTokens, object.mapTokens_id, id]
  | .index object position t => rw [mapTokens, object.mapTokens_id, position.mapTokens_id, id]
  | .array items t => rw [mapTokens, mapTokensAll_id items, id]
  | .construct className args t => rw [mapTokens, mapTokensAll_id args, id]

theorem mapTokensAll_id (es : List Expr) : mapTokensAll id es = es := by
  match es with
  | [] => rfl
  | e :: rest => rw [mapTokensAll, e.mapTokens_id, mapTokensAll_id rest]

end

theorem copy_eq (e : Expr) : e.copy = e :=
  e.mapTokens_id

theorem copyAll_eq (es : List Expr) : copyAll es = es :=
  mapTokensAll_id es

end Expr

namespace Stmt

mutual

theorem mapTokens_id (s : Stmt) : s.mapTokens id = s := by
  match s with
  | .hole => rfl
  | .expr e t => rw [mapTokens, e.mapTokens_id, id]
  | .func name params body t => rw [mapTokens, mapTokensAll_id body, id]
  | .classDef name members t => rw [mapTokens, mapTokensAll_id members, id]
  | .ret value t => rw [mapTokens, value.mapTokens_id, id]
  | .branch condition thenBody hasElse elseBody t =>
    rw [mapTokens, condition.mapTokens_id, mapTokensAll_id thenBody, mapTokensAll_id elseBody, id]
  | .whileLoop condition body t =>
    rw [mapTokens, condition.mapTokens_id, mapTokensAll_id body, id]
  | .forLoop init condition post body t =>
    rw [mapTokens, init.mapTokens_id, condition.mapTokens_id, post.mapTokens_id,
      mapTokensAll_id body, id]

theorem mapTokensAll_id (stmts : List Stmt) : mapTokensAll id stmts = stmts := by
  match stmts with
  | [] => rfl
  | s :: rest => rw [mapTokensAll, s.mapTokens_id, mapTokensAll_id rest]

end

theorem copy_eq (s : Stmt) : s.copy = s :=
  s.mapTokens_id

-- A second branch that is never taken is copied all the same.
example : (branch .hole [.hole] false [.ret .hole {}] {}).copy =
    branch .hole [.hole] false [.ret .hole {}] {} :=
  rfl

theorem copyAll_eq (stmts : List Stmt) : copyAll stmts = stmts :=
  mapTokensAll_id stmts

end Stmt

end Script
