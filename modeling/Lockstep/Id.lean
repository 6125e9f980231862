/-!
# Arena identifiers

Functions, blocks and globals live in arenas and are named by their position, so a pass can
hold on to one while the module around it changes. A position is a 32-bit word. An index
beyond that range is cut down to its low 32 bits.
-/

namespace Lockstep

/-- The three arenas of a module. -/
inductive Arena where
  | function
  | block
  | global
deriving DecidableEq

/-- The letters that introduce an identifier of the arena in a listing. -/
def Arena.tag : Arena → String
  | .function => "fn"
  | .block => "bb"
  | .global => "g"

/-- A position in one of the arenas. -/
structure ArenaId (a : Arena) where
  /-- The position as a machine word. -/
  val : UInt32
deriving DecidableEq

/-- Names a function slot of a module. -/
abbrev FunctionId := ArenaId .function

/-- Names a block of a function. -/
abbrev BlockId := ArenaId .block

/-- Names a global variable of a module. -/
abbrev GlobalId := ArenaId .global

/-- Names a value computed inside a function. -/
abbrev TempId := UInt32

namespace ArenaId

variable {a : Arena}

/-- The position as a natural number. -/
def index (id : ArenaId a) : Nat :=
  id.val.toNat

/-- The identifier of a position; only its low 32 bits are kept. -/
def ofIndex (n : Nat) : ArenaId a :=
  ⟨n.toUInt32⟩

/-- The spelling in listings and messages, such as `bb3`. -/
def text (id : ArenaId a) : String :=
  a.tag ++ toString id.index

/-- An identifier is made from its index. -/
@[simp]
theorem ofIndex_index (id : ArenaId a) : ofIndex id.index = id := by
  cases id
  simp [ofIndex, index]

/-- The index tells identifiers apart. -/
theorem index_inj {x y : ArenaId a} (h : x.index = y.index) : x = y := by
  rw [← ofIndex_index x, ← ofIndex_index y, h]

end ArenaId

end Lockstep
