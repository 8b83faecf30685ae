import Mathlib
import Ucore.Dtb
import Ucore.Paging
import Ucore.Lib.DeviceTree

/-! What `extract_memory_info` finds in a flattened device tree. -/

namespace Ucore

open Lib

def memoryPrefix : List Char := ['m', 'e', 'm', 'o', 'r', 'y']

mutual
/-- The nodes of which the code takes the properties for those of a memory node, in the
order of the block. `inside` is what holds of the properties in front of the node. -/
def coveredNode (inside : Bool) : DeviceNode → List DeviceNode
  | ⟨name, properties, children⟩ =>
    if inside || memoryPrefix.isPrefixOf name then ⟨name, properties, children⟩ :: coveredNodes true children
    else coveredNodes false children

/-- Behind the first of the siblings it starts anew. -/
def coveredNodes (inside : Bool) : List DeviceNode → List DeviceNode
  | [] => []
  | node :: siblings => coveredNode inside node ++ coveredNodes false siblings
end

/-- The first of the properties `reg` that are taken in front of the memory node, or in
the whole tree where there is none. -/
def strayReg (tree : DeviceTree) : Option Property :=
  (coveredNodes false (tree.children.takeWhile fun node => !node.describesMemory)).findSome? DeviceNode.reg

/-- The memory that the root's memory node describes if there is exactly one, and none
if there is none. -/
structure Discovered (tree : DeviceTree) (result : Option (BitVec 64 × BitVec 64)) : Prop where
  single : ∀ node, tree.memoryNodes = [node] → ∀ reg ∈ node.reg, result = some reg.pair
  absent : tree.memoryNodes = [] → result = none

/-- No other node is taken for the memory node, or it shows the same memory. -/
structure Undisturbed (tree : DeviceTree) : Prop where
  single : ∀ node, tree.memoryNodes = [node] → ∀ reg ∈ node.reg, ∀ stray ∈ strayReg tree, stray.pair = reg.pair
  absent : tree.memoryNodes = [] → strayReg tree = none

def FdtHeader.structBase (header : FdtHeader) (dtbVaddr : Nat) : Nat := dtbVaddr + (fdt32ToCpu header.offDtStruct).toNat

def FdtHeader.stringsBase (header : FdtHeader) (dtbVaddr : Nat) : Nat := dtbVaddr + (fdt32ToCpu header.offDtStrings).toNat

/-- A flattened form of the tree, somewhere in the window that the kernel has mapped. -/
structure Flattened (tree : DeviceTree) where
  dtbVaddr : Nat
  header : FdtHeader
  tokens : List FdtToken
  block : List (BitVec 8)
  strings : List (BitVec 8)
  serial : tokens.filter (fun token => !token.isNop) = tree.tokens
  encodes : Encodes strings tokens block
  mapped : kernWindow ≤ dtbVaddr
  structFits : header.structBase dtbVaddr + block.length ≤ 2 ^ 64
  stringsFit : header.stringsBase dtbVaddr + strings.length ≤ 2 ^ 64
  aligned : header.structBase dtbVaddr % 4 = 0
  apart : header.structBase dtbVaddr + block.length ≤ header.stringsBase dtbVaddr ∨
    header.stringsBase dtbVaddr + strings.length ≤ header.structBase dtbVaddr

/-- Nothing can be read but the structure block and the strings block. -/
def Flattened.memory {tree : DeviceTree} (blob : Flattened tree) (address : Nat) : Option (BitVec 8) :=
  let structBase := blob.header.structBase blob.dtbVaddr
  let stringsBase := blob.header.stringsBase blob.dtbVaddr
  if structBase ≤ address ∧ address < structBase + blob.block.length then blob.block[address - structBase]?
  else if stringsBase ≤ address then blob.strings[address - stringsBase]?
  else none

section Words

private theorem or_toNat {n : Nat} {x y : BitVec n} {i a : Nat} (upper : x.toNat = 2 ^ i * a) (lower : y.toNat < 2 ^ i) :
    (x ||| y).toNat = x.toNat + y.toNat := by
  rw [BitVec.toNat_or, upper, Nat.two_pow_add_eq_or_of_lt lower]

private theorem shifted_toNat {m : Nat} (n : Nat) {b : BitVec m} {i : Nat} (fits : i + m ≤ n) :
    (b.setWidth n <<< i).toNat = 2 ^ i * b.toNat := by
  have small : b.toNat * 2 ^ i < 2 ^ n := by
    calc b.toNat * 2 ^ i < 2 ^ m * 2 ^ i := Nat.mul_lt_mul_of_pos_right b.isLt (Nat.two_pow_pos i)
      _ = 2 ^ (i + m) := by rw [← Nat.pow_add, Nat.add_comm]
      _ ≤ 2 ^ n := Nat.pow_le_pow_right (by decide) fits
  rw [BitVec.toNat_shiftLeft, BitVec.toNat_setWidth_of_le (by omega), Nat.shiftLeft_eq, Nat.mod_eq_of_lt small, Nat.mul_comm]

private theorem littleWord_toNat (b0 b1 b2 b3 : BitVec 8) :
    (littleWord b0 b1 b2 b3).toNat = b0.toNat + b1.toNat * 2 ^ 8 + b2.toNat * 2 ^ 16 + b3.toNat * 2 ^ 24 := by
  have bound0 := b0.isLt
  have bound1 := b1.isLt
  have bound2 := b2.isLt
  have s3 : (b3.setWidth 32 <<< 24).toNat = 2 ^ 24 * b3.toNat := shifted_toNat 32 (by omega)
  have s2 : (b2.setWidth 32 <<< 16).toNat = 2 ^ 16 * b2.toNat := shifted_toNat 32 (by omega)
  have s1 : (b1.setWidth 32 <<< 8).toNat = 2 ^ 8 * b1.toNat := shifted_toNat 32 (by omega)
  have s0 : (b0.setWidth 32).toNat = b0.toNat := BitVec.toNat_setWidth_of_le (by omega)
  have top := or_toNat s3 (y := b2.setWidth 32 <<< 16) (by omega)
  have middle := or_toNat (x := b3.setWidth 32 <<< 24 ||| b2.setWidth 32 <<< 16) (y := b1.setWidth 32 <<< 8)
    (i := 16) (a := 2 ^ 8 * b3.toNat + b2.toNat) (by omega) (by omega)
  have lowest := or_toNat (x := b3.setWidth 32 <<< 24 ||| b2.setWidth 32 <<< 16 ||| b1.setWidth 32 <<< 8)
    (y := b0.setWidth 32) (i := 8) (a := 2 ^ 16 * b3.toNat + 2 ^ 8 * b2.toNat + b1.toNat) (by omega) (by omega)
  rw [littleWord]
  omega

private theorem byte_masked (x : BitVec 32) (i : Nat) : (x >>> i) &&& 0xff = (x.extractLsb' i 8).setWidth 32 := by
  apply BitVec.eq_of_toNat_eq
  rw [BitVec.toNat_and, BitVec.toNat_setWidth_of_le (by omega), BitVec.extractLsb'_toNat, BitVec.toNat_ushiftRight]
  exact Nat.and_two_pow_sub_one_eq_mod _ 8

private theorem fdt32ToCpu_eq (x : BitVec 32) :
    fdt32ToCpu x = littleWord (x.extractLsb' 24 8) (x.extractLsb' 16 8) (x.extractLsb' 8 8) (x.extractLsb' 0 8) := by
  have lowest := byte_masked x 0
  rw [BitVec.ushiftRight_zero] at lowest
  rw [fdt32ToCpu, littleWord, byte_masked, byte_masked, byte_masked, lowest]

private theorem fdt32ToCpu_reverses (b0 b1 b2 b3 : BitVec 8) : fdt32ToCpu (littleWord b0 b1 b2 b3) = littleWord b3 b2 b1 b0 := by
  have bound0 := b0.isLt
  have bound1 := b1.isLt
  have bound2 := b2.isLt
  have bound3 := b3.isLt
  apply BitVec.eq_of_toNat_eq
  simp only [fdt32ToCpu_eq, littleWord_toNat, BitVec.extractLsb'_toNat, Nat.shiftRight_eq_div_pow]
  omega

private theorem fdt32ToCpu_cell (w : BitVec 32) :
    fdt32ToCpu (littleWord (w.extractLsb' 24 8) (w.extractLsb' 16 8) (w.extractLsb' 8 8) (w.extractLsb' 0 8)) = w := by
  have bound := w.isLt
  apply BitVec.eq_of_toNat_eq
  rw [fdt32ToCpu_reverses]
  simp only [littleWord_toNat, BitVec.extractLsb'_toNat, Nat.shiftRight_eq_div_pow]
  omega

private theorem littleDouble_toNat (high low : BitVec 32) :
    (littleDouble low high).toNat = 2 ^ 32 * high.toNat + low.toNat := by
  have lowest : (low.setWidth 64).toNat = low.toNat := BitVec.toNat_setWidth_of_le (by omega)
  rw [littleDouble, or_toNat (shifted_toNat 64 (by omega)), shifted_toNat 64 (by omega), lowest]
  rw [lowest]
  exact low.isLt

private theorem fdt64ToCpu_toNat (high low : BitVec 32) :
    (fdt64ToCpu (littleDouble low high)).toNat =
      2 ^ 32 * (fdt32ToCpu low).toNat + (fdt32ToCpu high).toNat := by
  have value := littleDouble_toNat high low
  have small := low.isLt
  have masked : ∀ x : BitVec 64, (x &&& 0xffffffff).toNat = x.toNat % 2 ^ 32 := by
    intro x
    rw [BitVec.toNat_and]
    exact Nat.and_two_pow_sub_one_eq_mod _ 32
  have lower : (littleDouble low high &&& 0xffffffff).setWidth 32 = low := by
    apply BitVec.eq_of_toNat_eq
    rw [BitVec.toNat_setWidth, masked, value]
    omega
  have upper : (littleDouble low high >>> 32).setWidth 32 = high := by
    apply BitVec.eq_of_toNat_eq
    rw [BitVec.toNat_setWidth, BitVec.toNat_ushiftRight, value, Nat.shiftRight_eq_div_pow]
    omega
  rw [fdt64ToCpu, lower, upper]
  exact littleDouble_toNat (fdt32ToCpu low) (fdt32ToCpu high)

end Words

section Memory

variable {memory : Nat → Option (BitVec 8)} {address base fuel : Nat} {name : List Char} {w : BitVec 32}
  {first second bytes : List (BitVec 8)}

private def Holds (memory : Nat → Option (BitVec 8)) (address : Nat) (bytes : List (BitVec 8)) : Prop :=
  ∀ i byte, bytes[i]? = some byte → memory (address + i) = some byte

private theorem Holds.split (holds : Holds memory address (first ++ second)) :
    Holds memory address first ∧ Holds memory (address + first.length) second := by
  constructor
  · intro i byte here
    have inside : i < first.length := (List.getElem?_eq_some_iff.mp here).1
    exact holds i byte (by rwa [List.getElem?_append_left inside])
  · intro i byte here
    rw [Nat.add_assoc]
    exact holds (first.length + i) byte (by rwa [List.getElem?_append_right (by omega), Nat.add_sub_cancel_left])

private theorem Holds.drop {n : Nat} (holds : Holds memory address bytes) : Holds memory (address + n) (bytes.drop n) := by
  intro i byte here
  rw [Nat.add_assoc]
  exact holds (n + i) byte (by rwa [List.getElem?_drop] at here)

private theorem loadWord_spec {b0 b1 b2 b3 : BitVec 8} (holds : Holds memory address [b0, b1, b2, b3]) :
    loadWord memory address = .ok (littleWord b0 b1 b2 b3) := by
  have at0 : memory address = some b0 := holds 0 b0 rfl
  have at1 : memory (address + 1) = some b1 := holds 1 b1 rfl
  have at2 : memory (address + 2) = some b2 := holds 2 b2 rfl
  have at3 : memory (address + 3) = some b3 := holds 3 b3 rfl
  simp only [loadWord, at0, at1, at2, at3, deref, ok_bind]

private theorem loadWord_cell (holds : Holds memory address (cell w)) :
    ∃ word, loadWord memory address = .ok word ∧ fdt32ToCpu word = w :=
  ⟨_, loadWord_spec holds, fdt32ToCpu_cell w⟩

private theorem eight_bytes (long : bytes.length = 8) :
    ∃ b0 b1 b2 b3 b4 b5 b6 b7, bytes = [b0, b1, b2, b3, b4, b5, b6, b7] := by
  rcases bytes with _ | ⟨b0, _ | ⟨b1, _ | ⟨b2, _ | ⟨b3, _ | ⟨b4, _ | ⟨b5, _ | ⟨b6, _ | ⟨b7, _ | ⟨b8, rest⟩⟩⟩⟩⟩⟩⟩⟩⟩ <;>
    simp at long
  exact ⟨b0, b1, b2, b3, b4, b5, b6, b7, rfl⟩

private theorem loadDouble_spec (holds : Holds memory address bytes) (long : bytes.length = 8) :
    ∃ word, loadDouble memory address = .ok word ∧ fdt64ToCpu word = BitVec.ofNat 64 (bigEndian bytes) := by
  obtain ⟨b0, b1, b2, b3, b4, b5, b6, b7, rfl⟩ := eight_bytes long
  have parts : Holds memory address ([b0, b1, b2, b3] ++ [b4, b5, b6, b7]) := holds
  obtain ⟨low, high⟩ := parts.split
  refine ⟨littleDouble (littleWord b0 b1 b2 b3) (littleWord b4 b5 b6 b7), ?_, ?_⟩
  · have upper := loadWord_spec high
    simp only [List.length_cons, List.length_nil, Nat.zero_add, Nat.reduceAdd] at upper
    rw [loadDouble, loadWord_spec low, ok_bind, upper, ok_bind]
  · have value : bigEndian [b0, b1, b2, b3, b4, b5, b6, b7] =
        2 ^ 32 * (littleWord b3 b2 b1 b0).toNat + (littleWord b7 b6 b5 b4).toNat := by
      simp only [littleWord_toNat, bigEndian, List.foldl_cons, List.foldl_nil]
      omega
    apply BitVec.eq_of_toNat_eq
    have lower := (littleWord b7 b6 b5 b4).isLt
    have upper := (littleWord b3 b2 b1 b0).isLt
    rw [fdt64ToCpu_toNat, fdt32ToCpu_reverses, fdt32ToCpu_reverses, BitVec.toNat_ofNat, value, Nat.mod_eq_of_lt]
    omega

private theorem cString_spec (fuel : Nat) (spelled : Spelled name) (holds : Holds memory address (spelling name))
    (enough : name.length < fuel) : cString memory fuel address = .ok name := by
  induction name generalizing address fuel with
  | nil =>
    obtain ⟨fuel, rfl⟩ := Nat.exists_eq_succ_of_ne_zero (Nat.ne_zero_of_lt enough)
    have here : memory address = some 0 := holds 0 0 rfl
    simp only [cString, here, deref, ok_bind]
    rfl
  | cons c name ih =>
    obtain ⟨fuel, rfl⟩ := Nat.exists_eq_succ_of_ne_zero (Nat.ne_zero_of_lt enough)
    rw [List.length_cons] at enough
    unfold Spelled at spelled
    rw [List.forall_mem_cons] at spelled
    have parts : Holds memory address ([BitVec.ofNat 8 c.toNat] ++ spelling name) := holds
    obtain ⟨first, rest⟩ := parts.split
    have here : memory address = some (BitVec.ofNat 8 c.toNat) := first 0 _ rfl
    have value : (BitVec.ofNat 8 c.toNat).toNat = c.toNat := by
      rw [BitVec.toNat_ofNat]
      exact Nat.mod_eq_of_lt spelled.1.2
    have nonzero : BitVec.ofNat 8 c.toNat ≠ 0 := by
      intro zero
      rw [zero] at value
      exact absurd value.symm spelled.1.1.ne'
    have tail : cString memory fuel (address + 1) = .ok name := ih fuel spelled.2 rest (by omega)
    rw [cString, here, deref, ok_bind, if_neg nonzero, tail, ok_bind, value, Char.ofNat_toNat]

end Memory

section Comparisons

variable {name other : List Char}

private theorem strcmp_eq_zero (first : Spelled name) (second : Spelled other) : strcmp name other = 0 ↔ name = other := by
  induction name generalizing other with
  | nil =>
    cases other with
    | nil => simp [strcmp]
    | cons d other =>
      have positive := (List.forall_mem_cons.mp second).1.1
      simp [strcmp, positive.ne']
  | cons c name ih =>
    have positive := (List.forall_mem_cons.mp first).1.1
    cases other with
    | nil => simp [strcmp, positive.ne']
    | cons d other =>
      by_cases same : c = d
      · simp [strcmp, same, ih (List.forall_mem_cons.mp first).2 (List.forall_mem_cons.mp second).2]
      · have differ : (c.toNat : Int) - d.toNat ≠ 0 := by
          intro zero
          exact same (Char.toNat_inj.mp (by omega))
        simp [strcmp, same, differ]

private theorem strncmp_eq_zero (second : Spelled other) : strncmp name other other.length = 0 ↔ other <+: name := by
  induction other generalizing name with
  | nil => simp [strncmp]
  | cons d other ih =>
    have positive := (List.forall_mem_cons.mp second).1.1
    cases name with
    | nil => simp [strncmp, positive.ne']
    | cons c name =>
      by_cases same : c = d
      · simp [strncmp, same, ih (List.forall_mem_cons.mp second).2]
      · have differ : (c.toNat : Int) - d.toNat ≠ 0 := by
          intro zero
          exact same (Char.toNat_inj.mp (by omega))
        simp [strncmp, same, differ, Ne.symm same]

end Comparisons

section Tokens

variable {inside : Bool} {tokens : List FdtToken} {strings block : List (BitVec 8)} {memory : Nat → Option (BitVec 8)}
  {stringsBase structPtr fuel : Nat}

/-- The search over the tokens of a block. -/
private def search : Bool → List FdtToken → Option (BitVec 64 × BitVec 64)
  | _, [] => none
  | inside, .beginNode name :: tokens => search (inside || memoryPrefix.isPrefixOf name) tokens
  | _, .endNode :: tokens => search false tokens
  | inside, .prop property :: tokens => if inside && property.isReg then some property.pair else search inside tokens
  | inside, .nop :: tokens => search inside tokens
  | _, .finish :: _ => none

private theorem search_nops (inside : Bool) (tokens : List FdtToken) :
    search inside (tokens.filter fun token => !token.isNop) = search inside tokens := by
  induction tokens generalizing inside with
  | nil => rfl
  | cons token tokens ih =>
    cases token with
    | beginNode name => rw [List.filter_cons_of_pos rfl, search, search, ih]
    | endNode => rw [List.filter_cons_of_pos rfl, search, search, ih]
    | prop property => rw [List.filter_cons_of_pos rfl, search, search, ih]
    | nop => rw [List.filter_cons_of_neg (by decide), ih, search]
    | finish => rw [List.filter_cons_of_pos rfl, search, search]

private theorem search_properties (properties : List Property) :
    search inside (properties.map .prop ++ tokens) =
      if inside then ((properties.find? Property.isReg).map Property.pair).or (search inside tokens) else search inside tokens := by
  induction properties with
  | nil => simp
  | cons property properties ih =>
    rw [List.map_cons, List.cons_append, search, ih]
    cases inside with
    | false => simp
    | true => cases isReg : property.isReg <;> simp [isReg]

mutual
private theorem search_node (inside : Bool) (node : DeviceNode) (tokens : List FdtToken) :
    search inside (node.tokens ++ tokens) =
      (((coveredNode inside node).findSome? DeviceNode.reg).map Property.pair).or (search false tokens) := by
  obtain ⟨name, properties, children⟩ := node
  rw [DeviceNode.tokens, coveredNode, List.cons_append, search, List.append_assoc, search_properties, search_nodes]
  cases inside || memoryPrefix.isPrefixOf name with
  | false => rfl
  | true =>
    rw [if_pos rfl, if_pos rfl, List.findSome?_cons]
    change ((DeviceNode.reg ⟨name, properties, children⟩).map Property.pair).or _ = _
    cases DeviceNode.reg ⟨name, properties, children⟩ with
    | none => rfl
    | some reg => rfl
termination_by structural node

private theorem search_nodes (inside : Bool) (nodes : List DeviceNode) (tokens : List FdtToken) :
    search inside (forestTokens nodes ++ tokens) =
      (((coveredNodes inside nodes).findSome? DeviceNode.reg).map Property.pair).or (search false tokens) := by
  cases nodes with
  | nil => simp [forestTokens, coveredNodes, search]
  | cons node siblings =>
    rw [forestTokens, coveredNodes, List.append_assoc, search_node, search_nodes, List.findSome?_append]
    cases (coveredNode inside node).findSome? DeviceNode.reg with
    | none => rfl
    | some reg => rfl
termination_by structural nodes
end

theorem search_tree (tree : DeviceTree) (serial : tokens.filter (fun token => !token.isNop) = tree.tokens) :
    search false tokens = ((coveredNodes false tree.children).findSome? DeviceNode.reg).map Property.pair := by
  have root := search_node false ⟨[], tree.properties, tree.children⟩ [.finish]
  rw [← search_nops, serial, DeviceTree.tokens, root]
  simp [coveredNode, memoryPrefix, search]

private theorem wordAlign_spec (structPtr n : Nat) (aligned : structPtr % 4 = 0) (fits : structPtr + n + 3 < 2 ^ 64) :
    wordAlign ((structPtr : Int) + n + 3) = structPtr + (n + 3) / 4 * 4 := by
  unfold wordAlign
  omega

private theorem memoryPrefix_spelled : Spelled memoryPrefix := by
  simp [Spelled, memoryPrefix]

private theorem memory_flag (name : List Char) :
    (if strncmp name ['m', 'e', 'm', 'o', 'r', 'y'] 6 = 0 then true else inside) = (inside || memoryPrefix.isPrefixOf name) := by
  have compared : strncmp name ['m', 'e', 'm', 'o', 'r', 'y'] 6 = 0 ↔ memoryPrefix <+: name :=
    strncmp_eq_zero memoryPrefix_spelled
  by_cases prefixed : memoryPrefix <+: name
  · rw [if_pos (compared.mpr prefixed), List.isPrefixOf_iff_prefix.mpr prefixed, Bool.or_true]
  · have isFalse : memoryPrefix.isPrefixOf name = false := by
      rw [← Bool.not_eq_true, List.isPrefixOf_iff_prefix]
      exact prefixed
    rw [if_neg (fun zero => prefixed (compared.mp zero)), isFalse, Bool.or_false]

private theorem reg_spelled : Spelled ['r', 'e', 'g'] := by simp [Spelled]

private theorem namesReg_spec {name : List Char} {nameoff : BitVec 32} (names : Holds memory stringsBase strings)
    (namesShort : strings.length < 2 ^ 31) (spelled : Spelled name) (named : spelling name <+: strings.drop nameoff.toNat) :
    namesReg memory stringsBase inside nameoff = .ok (inside && decide (name = ['r', 'e', 'g'])) := by
  obtain ⟨rest, same⟩ := named
  have there : Holds memory (stringsBase + nameoff.toNat) (spelling name ++ rest) := same ▸ names.drop
  have length := congrArg List.length same
  simp only [List.length_append, List.length_drop, spelling_length] at length
  have string := cString_spec addressSpace spelled there.split.1 (by unfold addressSpace; omega)
  cases inside with
  | false => rfl
  | true =>
    rw [namesReg, if_pos rfl, string, ok_bind, Bool.true_and]
    simp only [strcmp_eq_zero spelled reg_spelled]

private theorem pair_spec {address : Nat} {value : List (BitVec 8)} (holds : Holds memory address value) (long : value.length ≥ 16) :
    ∃ base size, loadDouble memory address = .ok base ∧ loadDouble memory (address + 8) = .ok size ∧
      fdt64ToCpu base = BitVec.ofNat 64 (bigEndian (value.take 8)) ∧
      fdt64ToCpu size = BitVec.ofNat 64 (bigEndian ((value.drop 8).take 8)) := by
  have first : Holds memory address (value.take 8 ++ value.drop 8) := by
    rw [List.take_append_drop]
    exact holds
  have second : Holds memory (address + 8) ((value.drop 8).take 8 ++ (value.drop 8).drop 8) := by
    rw [List.take_append_drop]
    exact holds.drop
  obtain ⟨base, loadBase, baseIs⟩ := loadDouble_spec first.split.1 (by simp; omega)
  obtain ⟨size, loadSize, sizeIs⟩ := loadDouble_spec second.split.1 (by simp; omega)
  exact ⟨base, size, loadBase, loadSize, baseIs, sizeIs⟩

private theorem scanTokens_eq (encodes : Encodes strings tokens block) (holds : Holds memory structPtr block)
    (names : Holds memory stringsBase strings) (aligned : structPtr % 4 = 0) (fits : structPtr + block.length ≤ 2 ^ 64)
    (short : block.length < 2 ^ 31) (namesShort : strings.length < 2 ^ 31) (enough : tokens.length ≤ fuel) :
    scanTokens memory stringsBase fuel structPtr inside = .ok (search inside tokens) := by
  induction encodes generalizing structPtr fuel inside with
  | @beginNode name tokens bytes spelled rest ih =>
    obtain ⟨fuel, rfl⟩ := Nat.exists_eq_succ_of_ne_zero (Nat.ne_zero_of_lt enough)
    obtain ⟨head, holds⟩ := holds.split
    obtain ⟨text, holds⟩ := holds.split
    obtain ⟨word, load, value⟩ := loadWord_cell head
    have more := rest.length_pos
    simp only [List.length_append, List.length_cons, cell_length, padded_length, spelling_length]
      at fits short enough holds text
    have string := cString_spec addressSpace spelled text.split.1 (by unfold addressSpace; omega)
    rw [scanTokens, load, ok_bind]
    dsimp only
    rw [value, if_pos (by rfl), string, ok_bind]
    have place : wordAlign (((structPtr + 4 : Nat) : Int) + cInt name.length + 4) =
        structPtr + 4 + (name.length + 1 + 3) / 4 * 4 := by
      have behind := wordAlign_spec (structPtr + 4) (name.length + 1) (by omega) (by omega)
      have whole : cInt name.length = name.length := Int.bmod_eq_of_le (by omega) (by omega)
      rw [← behind, whole]
      congr 1
    rw [memory_flag, place, search]
    exact ih holds (by omega) (by omega) (by omega) (by omega)
  | @endNode tokens bytes rest ih =>
    obtain ⟨fuel, rfl⟩ := Nat.exists_eq_succ_of_ne_zero (Nat.ne_zero_of_lt enough)
    obtain ⟨head, holds⟩ := holds.split
    obtain ⟨word, load, value⟩ := loadWord_cell head
    simp only [List.length_append, List.length_cons, cell_length] at fits short enough holds
    rw [scanTokens, load, ok_bind]
    dsimp only
    rw [value, if_neg (by decide), if_pos (by rfl), search]
    exact ih holds (by omega) (by omega) (by omega) (by omega)
  | @prop property tokens bytes nameoff spelled named small rest ih =>
    obtain ⟨fuel, rfl⟩ := Nat.exists_eq_succ_of_ne_zero (Nat.ne_zero_of_lt enough)
    obtain ⟨head, holds⟩ := holds.split
    obtain ⟨lengthCell, holds⟩ := holds.split
    obtain ⟨nameCell, holds⟩ := holds.split
    obtain ⟨content, holds⟩ := holds.split
    obtain ⟨word, load, isProp⟩ := loadWord_cell head
    obtain ⟨lengthWord, loadLength, propLen⟩ := loadWord_cell lengthCell
    obtain ⟨nameWord, loadName, propNameoff⟩ := loadWord_cell nameCell
    have lenNat : (BitVec.ofNat 32 property.value.length).toNat = property.value.length := by
      rw [BitVec.toNat_ofNat, Nat.mod_eq_of_lt small]
    have more := rest.length_pos
    simp only [List.length_append, List.length_cons, cell_length, padded_length]
      at fits short enough holds content loadLength loadName
    rw [scanTokens, load, ok_bind]
    dsimp only
    rw [isProp, if_neg (by decide), if_neg (by decide), if_pos (by rfl), loadLength, ok_bind, loadName, ok_bind, propLen,
      propNameoff, lenNat, namesReg_spec names namesShort spelled named, ok_bind, search]
    by_cases found : (inside && property.isReg) = true
    · rw [if_pos found]
      simp only [Property.isReg, Bool.and_eq_true, decide_eq_true_eq] at found
      have data : structPtr + 4 + 4 + 4 = structPtr + 4 + 8 := by omega
      obtain ⟨base, size, loadBase, loadSize, baseIs, sizeIs⟩ := pair_spec content.split.1 found.2.2
      rw [data] at loadBase loadSize
      have both : (inside && decide (property.name = ['r', 'e', 'g'])) = true ∧ property.value.length ≥ 16 := by
        simpa [and_assoc] using found
      rw [if_pos both, loadBase, ok_bind, loadSize, ok_bind, baseIs, sizeIs, Property.pair]
    · rw [if_neg found]
      have missed : ¬ ((inside && decide (property.name = ['r', 'e', 'g'])) = true ∧ property.value.length ≥ 16) := by
        simpa [Property.isReg] using found
      have place : wordAlign (((structPtr + 4 + 8 : Nat) : Int) + property.value.length + 3) =
          structPtr + 4 + 8 + (property.value.length + 3) / 4 * 4 := wordAlign_spec _ _ (by omega) (by omega)
      have behind : structPtr + 4 + 4 + 4 + (property.value.length + 3) / 4 * 4 =
          structPtr + 4 + 8 + (property.value.length + 3) / 4 * 4 := by omega
      rw [behind] at holds
      rw [if_neg missed, place]
      exact ih holds (by omega) (by omega) (by omega) (by omega)
  | @nop tokens bytes rest ih =>
    obtain ⟨fuel, rfl⟩ := Nat.exists_eq_succ_of_ne_zero (Nat.ne_zero_of_lt enough)
    obtain ⟨head, holds⟩ := holds.split
    obtain ⟨word, load, value⟩ := loadWord_cell head
    simp only [List.length_append, List.length_cons, cell_length] at fits short enough holds
    rw [scanTokens, load, ok_bind]
    dsimp only
    rw [value, if_neg (by decide), if_neg (by decide), if_neg (by decide), if_pos (by rfl), search]
    exact ih holds (by omega) (by omega) (by omega) (by omega)
  | finish =>
    obtain ⟨fuel, rfl⟩ := Nat.exists_eq_succ_of_ne_zero (Nat.ne_zero_of_lt enough)
    obtain ⟨word, load, value⟩ := loadWord_cell holds
    rw [scanTokens, load, ok_bind]
    dsimp only
    rw [value, if_neg (by decide), if_neg (by decide), if_neg (by decide), if_neg (by decide), search]

end Tokens

section Blobs

variable {tree : DeviceTree}

private theorem Flattened.holds_block (blob : Flattened tree) :
    Holds blob.memory (blob.header.structBase blob.dtbVaddr) blob.block := by
  intro i byte here
  have inside : i < blob.block.length := (List.getElem?_eq_some_iff.mp here).1
  unfold Flattened.memory
  dsimp only
  rw [if_pos (by omega), Nat.add_sub_cancel_left]
  exact here

private theorem Flattened.holds_strings (blob : Flattened tree) :
    Holds blob.memory (blob.header.stringsBase blob.dtbVaddr) blob.strings := by
  intro i byte here
  have inside : i < blob.strings.length := (List.getElem?_eq_some_iff.mp here).1
  have apart := blob.apart
  unfold Flattened.memory
  dsimp only
  rw [if_neg (by omega), if_pos (by omega), Nat.add_sub_cancel_left]
  exact here

/-- The search ends, reads nothing but the two blocks, and takes the first `reg` that the
flag covers. -/
theorem extractMemoryInfo_eq (blob : Flattened tree) :
    extractMemoryInfo blob.memory blob.dtbVaddr blob.header =
      .ok (((coveredNodes false tree.children).findSome? DeviceNode.reg).map Property.pair) := by
  have structFits := blob.structFits
  have stringsFit := blob.stringsFit
  have mapped := blob.mapped
  have count := blob.encodes.length_le
  have structBase : blob.dtbVaddr ≤ blob.header.structBase blob.dtbVaddr := Nat.le_add_right _ _
  have stringsBase : blob.dtbVaddr ≤ blob.header.stringsBase blob.dtbVaddr := Nat.le_add_right _ _
  unfold kernWindow at mapped
  rw [← search_tree tree blob.serial]
  exact scanTokens_eq blob.encodes blob.holds_block blob.holds_strings blob.aligned structFits (by omega) (by omega)
    (by unfold addressSpace; omega)

private theorem covered_memory {node : DeviceNode} (isMemory : node.isMemory) :
    ∃ inner, coveredNode false node = node :: inner := by
  obtain ⟨name, properties, children⟩ := node
  have prefixed : memoryPrefix.isPrefixOf name = true := by
    rw [List.isPrefixOf_iff_prefix]
    simp only [DeviceNode.isMemory, decide_eq_true_eq] at isMemory
    rcases isMemory with exactly | unit
    · rw [exactly]
      exact List.prefix_rfl
    · exact (List.prefix_append memoryPrefix ['@']).trans unit
  rw [coveredNode, Bool.false_or, if_pos prefixed]
  exact ⟨_, rfl⟩

private theorem findSome_children (tree : DeviceTree) :
    (coveredNodes false tree.children).findSome? DeviceNode.reg =
      (strayReg tree).or (tree.memoryNodes.head?.bind DeviceNode.reg) := by
  unfold strayReg DeviceTree.memoryNodes
  generalize tree.children = children
  induction children with
  | nil => rfl
  | cons node children ih =>
    cases describes : node.describesMemory with
    | true =>
      have parts : node.isMemory = true ∧ node.reg.isSome = true := by
        simpa [DeviceNode.describesMemory] using describes
      obtain ⟨inner, same⟩ := covered_memory parts.1
      obtain ⟨reg, isReg⟩ := Option.isSome_iff_exists.mp parts.2
      simp [coveredNodes, same, describes, isReg]
    | false =>
      rw [coveredNodes, List.findSome?_append, ih, List.filter_cons_of_neg (by simp [describes]),
        List.takeWhile_cons_of_pos (by simp [describes]), coveredNodes, List.findSome?_append, Option.or_assoc]

/-- The code finds the memory exactly in the trees in which it does not take another node
for the memory node, or takes one that shows the same memory. -/
theorem extract_memory_info (blob : Flattened tree) :
    (∃ result, extractMemoryInfo blob.memory blob.dtbVaddr blob.header = .ok result ∧ Discovered tree result) ↔
      Undisturbed tree := by
  rw [extractMemoryInfo_eq, findSome_children]
  constructor
  · rintro ⟨result, done, discovered⟩
    have value := Except.ok.inj done
    constructor
    · intro node only reg isReg stray isStray
      have found := discovered.single node only reg isReg
      rw [← value, Option.mem_def.mp isStray] at found
      exact Option.some.inj found
    · intro absent
      have nothing := discovered.absent absent
      rw [← value, absent] at nothing
      simpa using nothing
  · intro undisturbed
    refine ⟨_, rfl, ?_, ?_⟩
    · intro node only reg isReg
      rw [only, List.head?_cons, Option.bind_some, Option.mem_def.mp isReg]
      cases isStray : strayReg tree with
      | none => rfl
      | some stray =>
        have same := undisturbed.single node only reg isReg stray isStray
        rw [Option.some_or, Option.map_some, same]
    · intro absent
      rw [undisturbed.absent absent, absent]
      rfl

/-- A memory controller in front of the memory. -/
def controllerTree : DeviceTree where
  properties := [⟨"#address-cells".toList, [0, 0, 0, 2]⟩, ⟨"#size-cells".toList, [0, 0, 0, 2]⟩]
  children := [
    ⟨"memory-controller@10000000".toList, [⟨['r', 'e', 'g'], [0, 0, 0, 0, 0x10, 0, 0, 0, 0, 0, 0, 0, 0, 0, 0x10, 0]⟩], []⟩,
    ⟨"memory@80000000".toList, [⟨['r', 'e', 'g'], [0, 0, 0, 0, 0x80, 0, 0, 0, 0, 0, 0, 0, 0x08, 0, 0, 0]⟩], []⟩]

def controllerBlob : Flattened controllerTree where
  dtbVaddr := 0xFFFFFFFFC2200000
  header := ⟨0x38000000, 0xdc000000⟩
  tokens := controllerTree.tokens
  block := _
  strings := spelling ['r', 'e', 'g'] ++ (spelling "#address-cells".toList ++ spelling "#size-cells".toList)
  serial := rfl
  encodes :=
    .beginNode (by decide +kernel) <|
      .prop 4 (by decide +kernel) (by decide +kernel) (by decide +kernel) <|
      .prop 19 (by decide +kernel) (by decide +kernel) (by decide +kernel) <|
      .beginNode (by decide +kernel) <|
        .prop 0 (by decide +kernel) (by decide +kernel) (by decide +kernel) <| .endNode <|
      .beginNode (by decide +kernel) <|
        .prop 0 (by decide +kernel) (by decide +kernel) (by decide +kernel) <| .endNode <| .endNode .finish
  mapped := by decide +kernel
  structFits := by decide +kernel
  stringsFit := by decide +kernel
  aligned := by decide +kernel
  apart := by decide +kernel

theorem controller_misleads :
    extractMemoryInfo controllerBlob.memory controllerBlob.dtbVaddr controllerBlob.header = .ok (some (0x10000000, 0x1000)) ∧
      ¬ Discovered controllerTree (some (0x10000000, 0x1000)) := by
  constructor
  · decide +kernel
  · intro discovered
    have found := discovered.single _ rfl _ rfl
    revert found
    decide

end Blobs

end Ucore
