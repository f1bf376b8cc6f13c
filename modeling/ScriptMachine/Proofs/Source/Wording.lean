import ScriptMachine.Proofs.Source.Climbing

/-!
# Trees and the tokens they are read from

A tree is read from a list of tokens when going through the tree in order gives these tokens. Three
things in the tokens leave no mark in the tree: parentheses around an expression, a semicolon after a
statement, and a comma after the last argument or parameter. An operand without parentheses fits its
operator: on the left it binds at least as tightly and on the right tighter, and no comparison is an
operand of another one.
-/

namespace ScriptMachine.Source

/-- Names are read from tokens, with commas between them and perhaps one after the last. -/
inductive ParamsFrom : List String → List Token → Prop
  | nil : ParamsFrom [] []
  | one {name : String} : ParamsFrom [name] [.ident name]
  | cons {name : String} {rest : List String} {ts : List Token} (hrest : ParamsFrom rest ts) :
    ParamsFrom (name :: rest) (.ident name :: .sign .comma :: ts)

mutual

/-- An expression is read from tokens; `grouped` says that parentheses stand around all of them. -/
inductive ExprFrom : (grouped : Bool) → Expr → List Token → Prop
  | number {digits : String} {p : Position} :
    ExprFrom false (.number digits p) [.integer digits]
  | text {raw : String} {p : Position} : ExprFrom false (.text raw p) [.text raw]
  | name {ident : String} {p : Position} : ExprFrom false (.name ident p) [.ident ident]
  | bool {value : Bool} {p : Position} :
    ExprFrom false (.bool value p) [.keyword (if value then .kwTrue else .kwFalse)]
  | nil {p : Position} : ExprFrom false (.nil p) [.keyword .kwNil]
  | group {grouped : Bool} {e : Expr} {ts : List Token} (h : ExprFrom grouped e ts) :
    ExprFrom true e (.sign .lparen :: (ts ++ [.sign .rparen]))
  | binary {op : BinaryOp} {lhs rhs : Expr} {p : Position} {left right : Bool} {ls rs : List Token}
    (hl : ExprFrom left lhs ls) (hleft : left = false → op.groupsLeft lhs = false)
    (hr : ExprFrom right rhs rs) (hright : right = false → op.groupsRight rhs = false) :
    ExprFrom false (.binary op lhs rhs p) (ls ++ .sign op.sign :: rs)
  | unary {op : UnaryOp} {operand : Expr} {p : Position} {grouped : Bool} {ts : List Token}
    (h : ExprFrom grouped operand ts) (hfits : grouped = false → operand.operator? = none) :
    ExprFrom false (.unary op operand p) (.sign op.sign :: ts)
  | call {callee : Expr} {args : List Expr} {p : Position} {grouped : Bool} {cs as : List Token}
    (hc : ExprFrom grouped callee cs) (hfits : grouped = false → callee.isOperation = false)
    (ha : ArgsFrom args as) :
    ExprFrom false (.call callee args p) (cs ++ .sign .lparen :: (as ++ [.sign .rparen]))
  | cond {test : Expr} {body : Block} {otherwise : Else} {p : Position} {grouped : Bool}
    {ts bs os : List Token} (ht : ExprFrom grouped test ts) (hb : BlockFrom body bs)
    (ho : ElseFrom otherwise os) :
    ExprFrom false (.cond test body otherwise p) (.keyword .kwIf :: (ts ++ (bs ++ os)))
  | block {body : Block} {bs : List Token} (hb : BlockFrom body bs) :
    ExprFrom false (.block body) bs

/-- Arguments are read from tokens, with commas between them and perhaps one after the last. -/
inductive ArgsFrom : List Expr → List Token → Prop
  | nil : ArgsFrom [] []
  | one {e : Expr} {grouped : Bool} {ts : List Token} (h : ExprFrom grouped e ts) : ArgsFrom [e] ts
  | cons {e : Expr} {rest : List Expr} {grouped : Bool} {ts rs : List Token}
    (h : ExprFrom grouped e ts) (hrest : ArgsFrom rest rs) :
    ArgsFrom (e :: rest) (ts ++ .sign .comma :: rs)

/-- An alternative is read from tokens. -/
inductive ElseFrom : Else → List Token → Prop
  | absent : ElseFrom .absent []
  | block {body : Block} {bs : List Token} (hb : BlockFrom body bs) :
    ElseFrom (.block body) (.keyword .kwElse :: bs)
  | elseIf {test : Expr} {body : Block} {otherwise : Else} {p : Position} {grouped : Bool}
    {ts bs os : List Token} (ht : ExprFrom grouped test ts) (hb : BlockFrom body bs)
    (ho : ElseFrom otherwise os) :
    ElseFrom (.elseIf test body otherwise p)
      (.keyword .kwElse :: .keyword .kwIf :: (ts ++ (bs ++ os)))

/-- A statement is read from tokens, without a semicolon after it. -/
inductive StmtFrom : Stmt → List Token → Prop
  | bind {mutable : Bool} {name : String} {value : Expr} {p : Position} {grouped : Bool}
    {ts : List Token} (hv : ExprFrom grouped value ts) :
    StmtFrom (.bind mutable name value p)
      (.keyword (if mutable then .kwMut else .kwLet) :: .ident name :: .sign .assign :: ts)
  | assign {ident : String} {q p : Position} {value : Expr} {left right : Bool} {ts vs : List Token}
    (ht : ExprFrom left (.name ident q) ts) (hv : ExprFrom right value vs) :
    StmtFrom (.assign (.name ident q) value p) (ts ++ .sign .assign :: vs)
  | func {name : String} {params : List String} {body : Block} {p : Position}
    {ps bs : List Token} (hp : ParamsFrom params ps) (hb : BlockFrom body bs) :
    StmtFrom (.func name params body p)
      (.keyword .kwFn :: .ident name :: .sign .lparen :: (ps ++ .sign .rparen :: bs))
  | retNil {p : Position} : StmtFrom (.retNil p) [.keyword .kwReturn]
  | ret {value : Expr} {p : Position} {grouped : Bool} {ts : List Token}
    (hv : ExprFrom grouped value ts) : StmtFrom (.ret value p) (.keyword .kwReturn :: ts)
  | loop {test : Expr} {body : Block} {p : Position} {grouped : Bool} {ts bs : List Token}
    (ht : ExprFrom grouped test ts) (hb : BlockFrom body bs) :
    StmtFrom (.loop test body p) (.keyword .kwWhile :: (ts ++ bs))
  | expr {e : Expr} {grouped : Bool} {ts : List Token} (h : ExprFrom grouped e ts) :
    StmtFrom (.expr e) ts

/-- Statements are read from tokens, each with or without a semicolon after it. -/
inductive StmtsFrom : List Stmt → List Token → Prop
  | nil : StmtsFrom [] []
  | cons {s : Stmt} {rest : List Stmt} {ts rs : List Token} (h : StmtFrom s ts)
    (hrest : StmtsFrom rest rs) : StmtsFrom (s :: rest) (ts ++ rs)
  | semicolon {s : Stmt} {rest : List Stmt} {ts rs : List Token} (h : StmtFrom s ts)
    (hrest : StmtsFrom rest rs) : StmtsFrom (s :: rest) (ts ++ .sign .semicolon :: rs)

/-- A block is read from tokens. -/
inductive BlockFrom : Block → List Token → Prop
  | mk {stmts : List Stmt} {p : Position} {ts : List Token} (h : StmtsFrom stmts ts) :
    BlockFrom (.mk stmts p) (.sign .lbrace :: (ts ++ [.sign .rbrace]))

end

end ScriptMachine.Source
