import Mathlib

/-! Device trees, and the structure block of a flattened device tree: its tokens, and the
bytes that encode them. -/

namespace Ucore.Lib

structure Property where
  name : List Char
  value : List (BitVec 8)

structure DeviceNode where
  name : List Char
  properties : List Property
  children : List DeviceNode

/-- The root has no name. -/
structure DeviceTree where
  properties : List Property
  children : List DeviceNode

inductive FdtToken where
  | beginNode (name : List Char)
  | endNode
  | prop (property : Property)
  | nop
  | finish

mutual
def DeviceNode.tokens : DeviceNode → List FdtToken
  | .mk name properties children => .beginNode name :: (properties.map .prop ++ forestTokens children)

/-- The tokens of all that is inside of a node behind its properties, with its end. -/
def forestTokens : List DeviceNode → List FdtToken
  | [] => [.endNode]
  | node :: siblings => node.tokens ++ forestTokens siblings
end

def DeviceTree.tokens (tree : DeviceTree) : List FdtToken := (DeviceNode.mk [] tree.properties tree.children).tokens ++ [.finish]

def FdtToken.isNop : FdtToken → Bool
  | nop => true
  | _ => false

/-- A cell, the most significant byte first. -/
def cell (w : BitVec 32) : List (BitVec 8) :=
  [w.extractLsb' 24 8, w.extractLsb' 16 8, w.extractLsb' 8 8, w.extractLsb' 0 8]

/-- The number that big-endian bytes show. -/
def bigEndian (bytes : List (BitVec 8)) : ℕ := bytes.foldl (fun value byte => value * 256 + byte.toNat) 0

/-- A property `reg` that has room for an address and a size of two cells each. -/
def Property.isReg (property : Property) : Bool := property.name = ['r', 'e', 'g'] ∧ property.value.length ≥ 16

/-- The first address in such a property, and the first size. -/
def Property.pair (property : Property) : BitVec 64 × BitVec 64 :=
  (BitVec.ofNat 64 (bigEndian (property.value.take 8)), BitVec.ofNat 64 (bigEndian ((property.value.drop 8).take 8)))

def DeviceNode.reg (node : DeviceNode) : Option Property := node.properties.find? Property.isReg

/-- The node is named `memory` or `memory@` with a unit address. -/
def DeviceNode.isMemory (node : DeviceNode) : Bool :=
  node.name = ['m', 'e', 'm', 'o', 'r', 'y'] ∨ ['m', 'e', 'm', 'o', 'r', 'y', '@'] <+: node.name

def DeviceNode.describesMemory (node : DeviceNode) : Bool := node.isMemory && node.reg.isSome

def DeviceTree.memoryNodes (tree : DeviceTree) : List DeviceNode := tree.children.filter DeviceNode.describesMemory

/-- How many bytes of padding come behind `length` bytes. -/
def padding4 (length : ℕ) : ℕ := (4 - length % 4) % 4

def padded (bytes : List (BitVec 8)) : List (BitVec 8) := bytes ++ List.replicate (padding4 bytes.length) 0

/-- The characters of a name fit into bytes, and none of them is the NUL behind them. -/
def Spelled (name : List Char) : Prop := ∀ c ∈ name, 0 < c.toNat ∧ c.toNat < 256

instance (name : List Char) : Decidable (Spelled name) := 
  decidable_of_iff (name.all fun c => decide (0 < c.toNat ∧ c.toNat < 256)) (by simp [Spelled])

def spelling (name : List Char) : List (BitVec 8) := name.map (fun c => BitVec.ofNat 8 c.toNat) ++ [0]

/-- The bytes of the tokens of a structure block whose strings block is `strings`. -/
inductive Encodes (strings : List (BitVec 8)) : List FdtToken → List (BitVec 8) → Prop where
  | beginNode {name tokens bytes} (spelled : Spelled name) (rest : Encodes strings tokens bytes) :
      Encodes strings (.beginNode name :: tokens) (cell 1 ++ (padded (spelling name) ++ bytes))
  | endNode {tokens bytes} (rest : Encodes strings tokens bytes) : Encodes strings (.endNode :: tokens) (cell 2 ++ bytes)
  | prop {property tokens bytes} (nameoff : BitVec 32) (spelled : Spelled property.name)
      (named : spelling property.name <+: strings.drop nameoff.toNat) (short : property.value.length < 2 ^ 32)
      (rest : Encodes strings tokens bytes) :
      Encodes strings (.prop property :: tokens)
        (cell 3 ++ (cell (BitVec.ofNat 32 property.value.length) ++ (cell nameoff ++ (padded property.value ++ bytes))))
  | nop {tokens bytes} (rest : Encodes strings tokens bytes) : Encodes strings (.nop :: tokens) (cell 4 ++ bytes)
  | finish : Encodes strings [.finish] (cell 9)

variable {w : BitVec 32} {strings bytes : List (BitVec 8)} {tokens : List FdtToken} {name : List Char}

@[simp] theorem cell_length : (cell w).length = 4 := rfl

@[simp] theorem spelling_length : (spelling name).length = name.length + 1 := by simp [spelling]

theorem padded_length : (padded bytes).length = (bytes.length + 3) / 4 * 4 := by
  simp only [padded, padding4, List.length_append, List.length_replicate]
  omega

theorem Encodes.length_le (encodes : Encodes strings tokens bytes) : 4 * tokens.length ≤ bytes.length := by
  induction encodes with
  | beginNode spelled rest ih =>
    simp only [List.length_cons, List.length_append, cell_length]
    omega
  | endNode rest ih =>
    simp only [List.length_cons, List.length_append, cell_length]
    omega
  | prop nameoff spelled named short rest ih =>
    simp only [List.length_cons, List.length_append, cell_length]
    omega
  | nop rest ih =>
    simp only [List.length_cons, List.length_append, cell_length]
    omega
  | finish => simp

theorem Encodes.length_pos (encodes : Encodes strings tokens bytes) : 4 ≤ bytes.length := by
  cases encodes with
  | beginNode spelled rest => simp
  | endNode rest => simp
  | prop nameoff spelled named short rest => simp
  | nop rest => simp
  | finish => simp

end Ucore.Lib
