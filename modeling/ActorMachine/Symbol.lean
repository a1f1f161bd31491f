import ActorMachine.Text.CharList

namespace ActorMachine

structure SymbolTable where
  buckets : Vector Word 256

namespace SymbolTable

def empty : SymbolTable := ⟨Vector.replicate 256 .nil⟩

def slot (hash : UInt32) : Fin 256 := hash.toUInt8.toFin

/-- The symbol of a bucket that has the checksum and a spelling equal to `chars`. -/
def find? (h : Heap) (hash chars : Word) (b : Budget) (chain : Word) :
    Except Fault (Option Word) :=
  if h.isPair chain then
    match _hb : b.spend with
    | .error e => .error e
    | .ok b => do
      let sym := h.car chain
      let c ← h.cell sym
      if c.x = hash then
        if ← h.equal chars c.y then return some sym
      find? h hash chars b (h.cdr chain)
  else .ok none
termination_by b.left
decreasing_by all_goals exact Budget.left_lt ‹_›

def bucket (table : SymbolTable) (hash : UInt32) : Word := table.buckets.get (slot hash)

def setBucket (table : SymbolTable) (hash : UInt32) (v : Word) : SymbolTable :=
  ⟨table.buckets.set (slot hash) v (slot hash).isLt⟩

end SymbolTable

/-- A heap and the table of the symbols in it. -/
structure Lexicon where
  heap : Heap
  table : SymbolTable

abbrev LexiconM := EStateM Fault Lexicon

namespace Lexicon

def onHeap (act : HeapM α) : LexiconM α := fun ⟨h, table⟩ =>
  match act h with
  | .ok a h => .ok a ⟨h, table⟩
  | .error e h => .error e ⟨h, table⟩

instance : MonadLift HeapM LexiconM := ⟨onHeap⟩

def intern (chars : Word) : LexiconM Word := do
  let hash ← Heap.query fun h => h.checksum chars
  let word := .fix hash.toNat
  let bucket := (← get).table.bucket hash
  match ← Heap.query fun h => SymbolTable.find? h word chars (h.budget "symbol lookup") bucket with
  | some sym => return sym
  | none =>
    let sym ← Heap.alloc ⟨.symbolT, word, chars, .undefined⟩
    let bucket ← Heap.cons sym bucket
    modify fun l => { l with table := l.table.setBucket hash bucket }
    return sym

/-- The symbol of a name. The list built for the look-up is freed if the symbol has one already. -/
def internText (name : String) : LexiconM Word := do
  let chars ← Heap.ofText name
  let sym ← intern chars
  if (← Heap.fetch sym .y) ≠ chars then Heap.freeSpine chars
  return sym

end Lexicon

def Heap.symbolName (h : Heap) (sym : Word) : Except Fault String := do
  h.toText (← h.field sym .y)

end ActorMachine
