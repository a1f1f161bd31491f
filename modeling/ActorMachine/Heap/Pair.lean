import ActorMachine.Heap.Basic

namespace ActorMachine.Heap

def car (h : Heap) (v : Word) : Word := if h.isPair v then (h.cellAt v.index).x else .undefined

def cdr (h : Heap) (v : Word) : Word := if h.isPair v then (h.cellAt v.index).y else .undefined

def cons (head tail : Word) : HeapM Word := alloc ⟨.pairT, head, tail, .undefined⟩

def setCar (v x : Word) : HeapM (Option Notice) := do
  if (← get).isPair v then
    store v .x x
    return none
  else return some (.setCarOnNonPair v)

def setCdr (v y : Word) : HeapM (Option Notice) := do
  if (← get).isPair v then
    store v .y y
    return none
  else return some (.setCdrOnNonPair v)

def spine (h : Heap) (b : Budget) (v : Word) : Except Fault (List Word) :=
  if h.isPair v then
    match _hb : b.spend with
    | .error e => .error e
    | .ok b => (v :: ·) <$> h.spine b (h.cdr v)
  else .ok []
termination_by b.left
decreasing_by exact Budget.left_lt ‹_›

def listLength (h : Heap) (v : Word) : Except Fault Nat :=
  List.length <$> h.spine (h.budget "list_len") v

def items (h : Heap) (v : Word) : Except Fault (List Word) :=
  List.map h.car <$> h.spine (h.budget "list_to_vec") v

def prepend (items : List Word) (tail : Word) : HeapM Word :=
  items.foldrM cons tail

def ofItems (items : List Word) : HeapM Word := prepend items .nil

def freeSpine (v : Word) : HeapM Unit := do
  go ((← get).budget "free spine") v
where
  go (b : Budget) (v : Word) : HeapM Unit := do
    let h ← get
    if h.isPair v && h.permanent ≤ v.index then
      match _hb : b.spend with
      | .error e => throw e
      | .ok b =>
        let rest := h.cdr v
        free v
        go b rest
  termination_by b.left
  decreasing_by exact Budget.left_lt ‹_›

/-- Do all the pairs of words hold equal data? Pairs are compared item by item and anything else by
identity; each two pairs that meet spend one unit. -/
def equalAll (h : Heap) (b : Budget) : List (Word × Word) → Except Fault Bool
  | [] => .ok true
  | (x, y) :: rest =>
    if x = y then h.equalAll b rest
    else if h.isPair x && h.isPair y then
      match _hb : b.spend with
      | .error e => .error e
      | .ok b => h.equalAll b ((h.car x, h.car y) :: (h.cdr x, h.cdr y) :: rest)
    else .ok false
termination_by work => (b.left, work.length)
decreasing_by
  · exact Prod.Lex.right _ (Nat.lt_succ_self _)
  · exact Prod.Lex.left _ _ (Budget.left_lt ‹_›)

def equal (h : Heap) (x y : Word) : Except Fault Bool := h.equalAll (h.budget "equal") [(x, y)]

def pairAt? (h : Heap) : Nat → Word → Option Word
  | 0, v => if h.isPair v then some v else none
  | n + 1, v => if h.isPair v then h.pairAt? n (h.cdr v) else none

/-- Index into a list: 0 is the list itself, `n` its item number n counting from one, `-n` the rest
after n items. Past the end there is only `#?`. -/
def nth (h : Heap) (v : Word) (n : Int) : Word :=
  if n = 0 then v
  else match h.pairAt? (n.natAbs - 1) v with
    | some p => if 0 < n then h.car p else h.cdr p
    | none => .undefined

def firstItems (h : Heap) : Nat → Word → List Word
  | 0, _ => []
  | n + 1, v => h.car v :: h.firstItems n (h.cdr v)

def splitItems (h : Heap) : Nat → Word → Except Fault (List Word × Word)
  | 0, v => .ok ([], v)
  | n + 1, v =>
    if h.isPair v then do
      let (items, rest) ← h.splitItems n (h.cdr v)
      return (h.car v :: items, rest)
    else .error (.typeMismatch "part" "pair" v)

end ActorMachine.Heap
