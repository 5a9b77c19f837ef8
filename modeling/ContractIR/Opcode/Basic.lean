/-!
# Opcodes

The instruction set. The catalogue falls into three runs, in this order:
ordinary instructions, the call family, and the intrinsics, which ask the
machine about the running transaction. The position of an opcode in the
catalogue is its code.
-/

namespace ContractIR

/-- What an instruction does. -/
inductive Opcode
  -- ends of straight-line runs, and assignment
  | ret | revert | selfdestruct | br | assign
  -- memory and storage
  | load | store | sload | sstore
  -- operations on one value
  | isZero | not | log2 | sha3
  -- operations on two or three values
  | add | sub | mul | div | mod | exp | addMod | mulMod | expMod | sext | twos | bswap | byte
  | shift | and | or | xor | cmpEq | cmpNe | cmpLt | cmpLe | cmpGt | cmpGe
  -- events
  | log
  -- calls and account creation
  | call | callAt | staticCallAt | callAddress | create | copyCreate
  -- intrinsics
  | gas | gasPrice | gasLimit | beneficiary | timestamp | number | difficulty | address | origin
  | caller | callValue | msize | codeSize | blockHash | balance | extCodeSize
deriving DecidableEq, Repr

/-- The three runs of the catalogue. -/
inductive OpcodeRange
  | ordinary
  | call
  | intrinsic
deriving DecidableEq, Repr

/-- The run's identifier. -/
def OpcodeRange.name : OpcodeRange → String
  | ordinary => "Other"
  | call => "Call"
  | intrinsic => "Intrinsic"

namespace Opcode

/-- The catalogue. -/
def all : List Opcode := [
  ret, revert, selfdestruct, br, assign, load, store, sload, sstore, isZero, not, log2, sha3, add,
  sub, mul, div, mod, exp, addMod, mulMod, expMod, sext, twos, bswap, byte, shift, and, or, xor,
  cmpEq, cmpNe, cmpLt, cmpLe, cmpGt, cmpGe, log, call, callAt, staticCallAt, callAddress, create,
  copyCreate, gas, gasPrice, gasLimit, beneficiary, timestamp, number, difficulty, address,
  origin, caller, callValue, msize, codeSize, blockHash, balance, extCodeSize]

/-- The opcode with a given code. -/
def ofCode? (n : Nat) : Option Opcode := all[n]?

/-- The opcode's position in the catalogue. -/
def code (op : Opcode) : Nat := all.idxOf op

/-- The opcode's identifier. -/
def name : Opcode → String
  | ret => "Ret"
  | revert => "Revert"
  | selfdestruct => "Selfdestruct"
  | br => "Br"
  | assign => "Assign"
  | load => "Load"
  | store => "Store"
  | sload => "SLoad"
  | sstore => "SStore"
  | isZero => "IsZero"
  | not => "Not"
  | log2 => "Log2"
  | sha3 => "Sha3"
  | add => "Add"
  | sub => "Sub"
  | mul => "Mul"
  | div => "Div"
  | mod => "Mod"
  | exp => "Exp"
  | addMod => "AddMod"
  | mulMod => "MulMod"
  | expMod => "ExpMod"
  | sext => "SExt"
  | twos => "Twos"
  | bswap => "BSwap"
  | byte => "Byte"
  | shift => "Shift"
  | and => "And"
  | or => "Or"
  | xor => "Xor"
  | cmpEq => "CmpEq"
  | cmpNe => "CmpNe"
  | cmpLt => "CmpLt"
  | cmpLe => "CmpLe"
  | cmpGt => "CmpGt"
  | cmpGe => "CmpGe"
  | log => "Log"
  | call => "Call"
  | callAt => "CallAt"
  | staticCallAt => "StaticCallAt"
  | callAddress => "CallAddress"
  | create => "Create"
  | copyCreate => "CopyCreate"
  | gas => "Gas"
  | gasPrice => "GasPrice"
  | gasLimit => "GasLimit"
  | beneficiary => "Beneficiary"
  | timestamp => "Timestamp"
  | number => "Number"
  | difficulty => "Difficulty"
  | address => "Address"
  | origin => "Origin"
  | caller => "Caller"
  | callValue => "CallValue"
  | msize => "MSize"
  | codeSize => "CodeSize"
  | blockHash => "BlockHash"
  | balance => "Balance"
  | extCodeSize => "ExtCodeSize"

/-- The opcode with a given identifier. -/
def ofName? (s : String) : Option Opcode := all.find? fun op => op.name == s

/-- The word that stands for the opcode in assembly text; an assignment has
none. -/
def mnemonic : Opcode → String
  | ret => "ret"
  | revert => "revert"
  | selfdestruct => "selfdestruct"
  | br => "br"
  | assign => ""
  | load => "load"
  | store => "store"
  | sload => "sload"
  | sstore => "sstore"
  | isZero => "iszero"
  | not => "not"
  | log2 => "log2"
  | sha3 => "sha3"
  | add => "add"
  | sub => "sub"
  | mul => "mul"
  | div => "div"
  | mod => "mod"
  | exp => "exp"
  | addMod => "addmod"
  | mulMod => "mulmod"
  | expMod => "expmod"
  | sext => "sext"
  | twos => "twos"
  | bswap => "bswap"
  | byte => "byte"
  | shift => "shift"
  | and => "and"
  | or => "or"
  | xor => "xor"
  | cmpEq => "cmp eq"
  | cmpNe => "cmp ne"
  | cmpLt => "cmp lt"
  | cmpLe => "cmp le"
  | cmpGt => "cmp gt"
  | cmpGe => "cmp ge"
  | log => "log"
  | call => "call"
  | callAt => "call"
  | staticCallAt => "staticcall"
  | callAddress => "calladdress"
  | create => "create"
  | copyCreate => "copycreate"
  | gas => "iele.gas"
  | gasPrice => "iele.gasprice"
  | gasLimit => "iele.gaslimit"
  | beneficiary => "iele.beneficiary"
  | timestamp => "iele.timestamp"
  | number => "iele.number"
  | difficulty => "iele.difficulty"
  | address => "iele.address"
  | origin => "iele.origin"
  | caller => "iele.caller"
  | callValue => "iele.callvalue"
  | msize => "iele.msize"
  | codeSize => "iele.codesize"
  | blockHash => "iele.blockhash"
  | balance => "iele.balance"
  | extCodeSize => "iele.extcodesize"

/-- The opcode as messages spell it. -/
def text (op : Opcode) : String :=
  match op with
  | assign => "assign"
  | op => op.mnemonic

/-- The call family: control leaves the function for other code. -/
def isCall : Opcode → Bool
  | call | callAt | staticCallAt | callAddress | create | copyCreate => true
  | _ => false

/-- Questions to the machine about the running transaction. -/
def isIntrinsic : Opcode → Bool
  | gas | gasPrice | gasLimit | beneficiary | timestamp | number | difficulty | address | origin
  | caller | callValue | msize | codeSize | blockHash | balance | extCodeSize => true
  | _ => false

/-- The run of the catalogue an opcode stands in. -/
def range (op : Opcode) : OpcodeRange :=
  if op.isCall then .call else if op.isIntrinsic then .intrinsic else .ordinary

/-- Branches, returns and reverts end a straight-line run. -/
def isTerminator : Opcode → Bool
  | br | ret | revert => true
  | _ => false

/-- Operations on one value. -/
def isUnary : Opcode → Bool
  | isZero | not | log2 | sha3 => true
  | _ => false

/-- Comparisons of two values. -/
def isComparison : Opcode → Bool
  | cmpEq | cmpNe | cmpLt | cmpLe | cmpGt | cmpGe => true
  | _ => false

/-- Operations on two values, comparisons included. -/
def isBinary : Opcode → Bool
  | add | sub | mul | div | mod | exp | sext | twos | bswap | byte | shift | and | or | xor
  | cmpEq | cmpNe | cmpLt | cmpLe | cmpGt | cmpGe => true
  | _ => false

/-- Operations on three values. -/
def isTernary : Opcode → Bool
  | addMod | mulMod | expMod => true
  | _ => false

/-- Opcodes that are kept even when nobody reads their result: calls and
intrinsics, and operations that may stop the run (division by zero,
oversized exponents and widths). -/
def mayHaveSideEffects (op : Opcode) : Bool :=
  op.isCall || op.isIntrinsic ||
    match op with
    | div | mod | exp | addMod | mulMod | expMod | log2 | sext | bswap => true
    | _ => false

/-- The code of an opcode leads back to it. -/
@[simp] theorem ofCode?_code (op : Opcode) : ofCode? op.code = some op := by cases op <;> rfl

end Opcode

end ContractIR
