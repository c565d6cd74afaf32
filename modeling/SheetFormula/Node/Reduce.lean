import SheetFormula.Node.Build

/-!
# Reducing operators

An expression is read as a flat run of operands, operators and whitespace.  `Node.reduce` folds it
into one tree: in every round the operator of the lowest priority number is folded with its two
neighbours, the leftmost of several.  Whitespace between an operator and its operands ends up in the
folded node.
-/

namespace SheetFormula

namespace Node

/-- The priority number of an operator symbol, and 0 for any other node. -/
def priority : Node → Nat
  | leaf (.symbol s) _ =>
    match s with
    | .between => 1
    | .power => 2
    | .multiply | .divide => 3
    | .plus | .minus => 4
    | .equals | .notEquals | .greaterThan | .greaterThanEquals | .lessThan | .lessThanEquals => 5
    | _ => 0
  | _ => 0

/-- The lowest priority number among the operators of a list, and 0 when there is none. -/
def lowestPriority (nodes : List Node) : Nat :=
  nodes.foldl (fun lowest n =>
    let p := n.priority
    if p ≠ 0 ∧ (lowest = 0 ∨ p < lowest) then p else lowest) 0

/-- Folds an operator and its operands. -/
def fold (operator : Kind) (span : List Node) : Except Defect Node :=
  match operator with
  | .symbol .between => cellRange span
  | .symbol s =>
    match Operator.ofSymbol? s with
    | some op => binary (.binary op) span
    | none => .error (.notOperator operator)
  | _ => .error (.notOperator operator)

/-- The nodes after an operator is folded with its neighbours: `before` are those in front of it,
nearest first, and `after` those behind it. -/
def foldAround (before : List Node) (operator : Node) (after : List Node) :
    Except Defect (List Node) :=
  match before.dropWhile isWhitespace, after.dropWhile isWhitespace with
  | left :: outerBefore, right :: outerAfter => do
    let folded ← fold operator.kind <|
      left :: (before.takeWhile isWhitespace).reverse ++ operator ::
        (after.takeWhile isWhitespace ++ [right])
    return outerBefore.reverse ++ folded :: outerAfter
  | _, _ =>
    .error (.missingOperand operator.kind ((before.reverse ++ operator :: after).map kind))

/-- Folds the leftmost operator of a priority; `before` are the nodes in front, nearest first. -/
def foldFirst (p : Nat) (before : List Node) : List Node → Except Defect (List Node)
  | [] => .ok before.reverse
  | n :: rest => if n.priority = p then foldAround before n rest else foldFirst p (n :: before) rest

/-- Folds operators in at most `fuel` rounds. -/
def reduceIn : (fuel : Nat) → List Node → Except Defect Node
  | 0, nodes => .error (.notReduced (nodes.map kind))
  | fuel + 1, nodes =>
    match lowestPriority nodes with
    | 0 =>
      match nodes with
      | [n] => .ok n
      | _ => .error (.notReduced (nodes.map kind))
    | p => do
      let nodes ← foldFirst p [] nodes
      reduceIn fuel nodes

/-- Folds a run of operands, operators and whitespace into one tree.  Every round leaves fewer
nodes, so there are no more rounds than nodes. -/
def reduce (nodes : List Node) : Except Defect Node := reduceIn (nodes.length + 1) nodes

/-- Folds a run in which nodes may be absent.  A node that is absent and alone is all there is to
fold; beside others it would be asked for its kind, and there is no answer. -/
def reducePresent? (nodes : List (Option Node)) : Option (Except Defect (Option Node)) :=
  match nodes with
  | [none] => some (.ok none)
  | _ => (nodes.mapM id).map fun present => (reduce present).map some

end Node

end SheetFormula
