/-!
Machine words. Every field of every cell holds one word: a number, a plain reference to a cell, or a
capability on one. The first thirteen references are reserved for literals and type markers and have
names of their own. Main statement: a word packed from 64 bits gives those bits back.
-/

namespace ActorMachine

/-- A fixnum is a signed number of 63 bits; a reference and a capability carry a cell index. -/
inductive Word where
  | fixnum (n : BitVec 63)
  | ref (index : Nat)
  | cap (index : Nat)
  deriving DecidableEq, Repr

namespace Word

@[match_pattern] def undefined : Word := .ref 0
@[match_pattern] def nil : Word := .ref 1
@[match_pattern] def falsity : Word := .ref 2
@[match_pattern] def truth : Word := .ref 3
@[match_pattern] def unit : Word := .ref 4
@[match_pattern] def typeT : Word := .ref 5
@[match_pattern] def eventT : Word := .ref 6
@[match_pattern] def instrT : Word := .ref 7
@[match_pattern] def actorT : Word := .ref 8
@[match_pattern] def fixnumT : Word := .ref 9
@[match_pattern] def symbolT : Word := .ref 10
@[match_pattern] def pairT : Word := .ref 11
@[match_pattern] def freeT : Word := .ref 12

def reservedNames : List String :=
  ["#?", "()", "#f", "#t", "#unit", "Type_T", "Event_T", "Instr_T", "Actor_T", "Fixnum_T",
    "Symbol_T", "Pair_T", "Free_T"]

def reserved : Nat := 13

instance : Inhabited Word := ⟨undefined⟩

def fix (n : Int) : Word := .fixnum (BitVec.ofInt 63 n)

def ofBool (b : Bool) : Word := if b then truth else falsity

def isFixnum : Word → Bool
  | .fixnum _ => true
  | _ => false

def isRef : Word → Bool
  | .ref _ => true
  | _ => false

def isCap : Word → Bool
  | .cap _ => true
  | _ => false

def number? : Word → Option Int
  | .fixnum n => some n.toInt
  | _ => none

def fixnumBit : Nat := 0x8000000000000000

def capBit : Nat := 0x4000000000000000

/-- The cell index a word would address. Of a fixnum it is what its low 62 bits spell. -/
def index : Word → Nat
  | .fixnum n => n.toNat % capBit
  | .ref i => i
  | .cap i => i

def toRef (v : Word) : Word := .ref v.index

def toCap (v : Word) : Word := .cap v.index

def truthy (v : Word) : Bool := v ≠ falsity

@[simp] theorem index_toRef (v : Word) : v.toRef.index = v.index := rfl

@[simp] theorem index_toCap (v : Word) : v.toCap.index = v.index := rfl

@[simp] theorem toRef_ref (i : Nat) : (ref i).toRef = ref i := rfl

@[simp] theorem toRef_cap (i : Nat) : (cap i).toRef = ref i := rfl

@[simp] theorem toCap_ref (i : Nat) : (ref i).toCap = cap i := rfl

def reservedName? : Word → Option String
  | .ref i => reservedNames[i]?
  | _ => none

def signed (n : Int) : String :=
  (if n < 0 then "-" else "+") ++ toString n.natAbs

/-- Written form of a word: a signed number, `@` and an index for a capability, a reserved name, or
`^` and an index for any other reference. -/
def text : Word → String
  | .fixnum n => signed n.toInt
  | .cap i => "@" ++ toString i
  | .ref i => reservedNames[i]?.getD ("^" ++ toString i)

/-- Packed form: bit 63 marks a fixnum, and without it bit 62 marks a capability. -/
def toBits : Word → UInt64
  | .fixnum n => .ofNat (fixnumBit + n.toNat)
  | .cap i => .ofNat (capBit + i % capBit)
  | .ref i => .ofNat (i % capBit)

def ofBits (b : UInt64) : Word :=
  if fixnumBit ≤ b.toNat then .fixnum (.ofNat 63 b.toNat)
  else if capBit ≤ b.toNat then .cap (b.toNat - capBit)
  else .ref b.toNat

@[simp] theorem toBits_ofBits (b : UInt64) : (ofBits b).toBits = b := by
  have hb := b.toNat_lt
  apply UInt64.toNat.inj
  unfold ofBits fixnumBit capBit
  split
  · simp only [toBits, fixnumBit, UInt64.toNat_ofNat', BitVec.toNat_ofNat]
    omega
  · split <;> simp only [toBits, capBit, UInt64.toNat_ofNat'] <;> omega

end Word

end ActorMachine
