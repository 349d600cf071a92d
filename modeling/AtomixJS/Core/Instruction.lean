import AtomixJS.Core.Value

/-!
# Instructions

The opcode table is written once in `opcodes.ts` and once in
`instruction.impl.h`, with the same names in the same order.  `Opcode.table` is
that list, and the byte of an opcode is its place in it.

The compiler and the machine share the shape of an instruction and differ in
its operands: the compiler holds JavaScript numbers, the machine 16-bit and
32-bit words.  `InstOf` is the shape, with one constructor for each opcode, the
operators being grouped.  An opcode with operands it does not take cannot be
built.
-/

namespace AtomixJS

/-- The opcodes of the binary operators. -/
inductive BinaryOpcode
  | add | minus | mul | div | mod
  | binaryAnd | binaryOr | binaryXor | binaryLshft | binaryRshft | binaryZrshft
  | teq | nteq | gt | geq | lt | leq
  deriving DecidableEq, Repr

/-- The opcodes of the operators that replace the top of the stack. -/
inductive UnaryOpcode
  | binaryNot | not | negate | typeof
  deriving DecidableEq, Repr

/-- `enum Opcode`. -/
inductive Opcode
  | nop | ldInt | ldDouble | ldString | ldUndf | ldNull | ldTrue | ldFalse | ldThis
  | binary (op : BinaryOpcode)
  | unary (op : UnaryOpcode)
  | pop | dup | swap | allocLocal | storeLocal | loadLocal | loadArg
  | funcDecl | funcDeclE | call | arrAlloc | objAlloc | objStore | objLoad | objCload | objCstore
  | ret | pushScope | popScope | jmp | jmpF | jmpT | exportAs
  deriving DecidableEq, Repr

namespace Opcode

open BinaryOpcode UnaryOpcode in
/-- The enumeration in source order, from 0 to 52. -/
def table : List Opcode :=
  [nop, ldInt, ldDouble, ldString, ldUndf, ldNull, ldTrue, ldFalse, ldThis,
   binary add, binary minus, binary mul, binary div, binary mod,
   binary binaryAnd, binary binaryOr, binary binaryXor,
   binary binaryLshft, binary binaryRshft, binary binaryZrshft,
   unary binaryNot, unary not, unary negate, unary typeof,
   binary teq, binary nteq, binary gt, binary geq, binary lt, binary leq,
   pop, dup, swap, allocLocal, storeLocal, loadLocal, loadArg,
   funcDecl, funcDeclE, call, arrAlloc, objAlloc, objStore, objLoad, objCload, objCstore,
   ret, pushScope, popScope, jmp, jmpF, jmpT, exportAs]

/-- The byte of an opcode. -/
def byte (op : Opcode) : UInt8 := (table.idxOf op).toUInt8

/-- The opcode of a byte.  A byte beyond the table takes the `default` branch
that the loader shares with `OP_NOP`. -/
def ofByte (b : UInt8) : Opcode := table[b.toNat]?.getD nop

theorem mem_table (op : Opcode) : op ∈ table := by
  cases op with
  | binary op => cases op <;> decide
  | unary op => cases op <;> decide
  | _ => decide

theorem table_byte (op : Opcode) : table[op.byte.toNat]? = some op := by
  have hlt : table.idxOf op < table.length := List.idxOf_lt_length_of_mem (mem_table op)
  have hsmall : table.idxOf op < 256 := Nat.lt_trans hlt (by decide)
  have hbyte : op.byte.toNat = table.idxOf op := by
    simp only [byte, Nat.toUInt8, UInt8.toNat_ofNat']
    exact Nat.mod_eq_of_lt hsmall
  rw [hbyte, List.getElem?_eq_getElem hlt, List.getElem_idxOf hlt]

@[simp] theorem ofByte_byte (op : Opcode) : ofByte op.byte = op := by
  rw [ofByte, table_byte, Option.getD_some]

end Opcode

/-- An instruction with unsigned operands of type `u` and integer operands of
type `i`. -/
inductive InstOf (u i : Type)
  | nop
  | ldInt (operand : i)
  | ldDouble (operand : Binary64)
  | ldString (operand : u)
  | ldUndf | ldNull | ldTrue | ldFalse | ldThis
  | binary (op : BinaryOpcode)
  | unary (op : UnaryOpcode)
  | pop | dup | swap
  | allocLocal (operand : u)
  | storeLocal (operand : u)
  | loadLocal (operand : u)
  | loadArg (operand : u)
  | funcDecl (operand operand2 : u)
  | funcDeclE (operand : u)
  | call (operand : u)
  | arrAlloc | objAlloc
  | objStore (operand : u)
  | objLoad (operand : u)
  | objCload | objCstore
  | ret | pushScope | popScope
  | jmp (operand : u)
  | jmpF (operand : u)
  | jmpT (operand : u)
  | exportAs (operand : u)
  deriving DecidableEq, Repr

/-- An instruction of the compiler: `class Instruction`. -/
abbrev Instruction := InstOf ℕ ℤ

/-- An instruction of the machine: `struct Inst`, `InstInt32`, `InstDouble`,
`InstUInt16` and `Inst2UInt16`. -/
abbrev Inst := InstOf UInt16 CInt

namespace InstOf

variable {u i u' i' : Type}

/-- `OPCODE_OF`. -/
def opcode : InstOf u i → Opcode
  | nop => .nop
  | ldInt _ => .ldInt
  | ldDouble _ => .ldDouble
  | ldString _ => .ldString
  | ldUndf => .ldUndf
  | ldNull => .ldNull
  | ldTrue => .ldTrue
  | ldFalse => .ldFalse
  | ldThis => .ldThis
  | binary op => .binary op
  | unary op => .unary op
  | pop => .pop
  | dup => .dup
  | swap => .swap
  | allocLocal _ => .allocLocal
  | storeLocal _ => .storeLocal
  | loadLocal _ => .loadLocal
  | loadArg _ => .loadArg
  | funcDecl _ _ => .funcDecl
  | funcDeclE _ => .funcDeclE
  | call _ => .call
  | arrAlloc => .arrAlloc
  | objAlloc => .objAlloc
  | objStore _ => .objStore
  | objLoad _ => .objLoad
  | objCload => .objCload
  | objCstore => .objCstore
  | ret => .ret
  | pushScope => .pushScope
  | popScope => .popScope
  | jmp _ => .jmp
  | jmpF _ => .jmpF
  | jmpT _ => .jmpT
  | exportAs _ => .exportAs

/-- Replace the operands. -/
def map (f : u → u') (g : i → i') : InstOf u i → InstOf u' i'
  | nop => nop
  | ldInt x => ldInt (g x)
  | ldDouble x => ldDouble x
  | ldString x => ldString (f x)
  | ldUndf => ldUndf
  | ldNull => ldNull
  | ldTrue => ldTrue
  | ldFalse => ldFalse
  | ldThis => ldThis
  | binary op => binary op
  | unary op => unary op
  | pop => pop
  | dup => dup
  | swap => swap
  | allocLocal x => allocLocal (f x)
  | storeLocal x => storeLocal (f x)
  | loadLocal x => loadLocal (f x)
  | loadArg x => loadArg (f x)
  | funcDecl x y => funcDecl (f x) (f y)
  | funcDeclE x => funcDeclE (f x)
  | call x => call (f x)
  | arrAlloc => arrAlloc
  | objAlloc => objAlloc
  | objStore x => objStore (f x)
  | objLoad x => objLoad (f x)
  | objCload => objCload
  | objCstore => objCstore
  | ret => ret
  | pushScope => pushScope
  | popScope => popScope
  | jmp x => jmp (f x)
  | jmpF x => jmpF (f x)
  | jmpT x => jmpT (f x)
  | exportAs x => exportAs (f x)

@[simp] theorem opcode_map (f : u → u') (g : i → i') (inst : InstOf u i) :
    (inst.map f g).opcode = inst.opcode := by
  cases inst <;> rfl

end InstOf

/-- The instruction as the machine holds it: operands cut to their width, and a
`NOP` as the null pointer. -/
def Instruction.loaded (instruction : Instruction) : Option Inst :=
  if instruction = .nop then none
  else some (instruction.map (fun n => UInt16.ofNat n) (BitVec.ofInt 32))

end AtomixJS
