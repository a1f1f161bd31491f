import ActorMachine.Symbol

namespace ActorMachine.Heap

/-- What is still to be written: a value, the rest of a list from one of its pairs on, or the end of
a list whose last pair has this tail. -/
inductive Pending where
  | value (v : Word)
  | pairs (p : Word)
  | after (p : Word)
  | close

namespace Pending

def weight : Pending → Nat
  | value _ | pairs _ | close => 1
  | after _ => 3

/-- Orders what is pending, so that a step that spends nothing leaves less to do. -/
def total : List Pending → Nat
  | [] => 0
  | p :: rest => p.weight + total rest

end Pending

def kindName (t : Word) : String :=
  if t = .instrT then "code"
  else if t = .eventT then "event"
  else if t = .actorT then "actor-ref"
  else "cell"

def atomText (h : Heap) (v : Word) : Except Fault String :=
  match v with
  | .cap i => .ok ((if h.isActor v then "#actor@" else "#cap@") ++ toString i)
  | .fixnum _ => .ok v.text
  | .ref i =>
    if v.reservedName?.isSome || !h.isCell v then .ok v.text
    else if h.isSymbol v then h.symbolName v
    else .ok ("#" ++ kindName (h.cellAt i).t ++ "^" ++ toString i)

def printsAsList (h : Heap) (v : Word) : Bool := v.reservedName?.isNone && h.isPair v

def renderAll (h : Heap) (b : Budget) (out : String) : List Pending → Except Fault String
  | [] => .ok out
  | .close :: rest => h.renderAll b (out ++ ")") rest
  | .after p :: rest =>
    if h.isPair p then h.renderAll b (out ++ " ") (.pairs p :: rest)
    else if p = .nil then h.renderAll b out (.close :: rest)
    else h.renderAll b (out ++ " . ") (.value p :: .close :: rest)
  | .pairs p :: rest =>
    match _hb : b.spend with
    | .error e => .error e
    | .ok b => h.renderAll b out (.value (h.car p) :: .after (h.cdr p) :: rest)
  | .value v :: rest =>
    match _hb : b.spend with
    | .error e => .error e
    | .ok b =>
      if h.printsAsList v then h.renderAll b (out ++ "(") (.pairs v :: rest)
      else do h.renderAll b (out ++ (← h.atomText v)) rest
termination_by work => (b.left, Pending.total work)
decreasing_by
  · exact Prod.Lex.right _ (by simp only [Pending.total, Pending.weight]; omega)
  · exact Prod.Lex.right _ (by simp only [Pending.total, Pending.weight]; omega)
  · exact Prod.Lex.right _ (by simp only [Pending.total, Pending.weight]; omega)
  · exact Prod.Lex.right _ (by simp only [Pending.total, Pending.weight]; omega)
  · exact Prod.Lex.left _ _ (Budget.left_lt ‹_›)
  · exact Prod.Lex.left _ _ (Budget.left_lt ‹_›)
  · exact Prod.Lex.left _ _ (Budget.left_lt ‹_›)

def render (h : Heap) (v : Word) : Except Fault String :=
  h.renderAll (h.budget "render") "" [.value v]

end ActorMachine.Heap
