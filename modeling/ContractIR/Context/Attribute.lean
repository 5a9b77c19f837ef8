import ContractIR.Context.Edit
/-!
# Attributes

Functions carry flags, contracts carry metadata and storage slots carry the
constant they are stored at. Setting an attribute on a value of another kind
changes nothing.
-/

namespace ContractIR

/-- The flags of a function. -/
inductive FunctionFlag
  | isPublic
  | isInit
  | isDeposit
deriving DecidableEq, Repr

namespace FunctionFlag

/-- Whether a function carries the flag. -/
def get : FunctionFlag → FunctionBody → Bool
  | isPublic, f => f.isPublic
  | isInit, f => f.isInit
  | isDeposit, f => f.isDeposit

/-- Sets the flag of a function. -/
def set : FunctionFlag → Bool → FunctionBody → FunctionBody
  | isPublic, b, f => { f with isPublic := b }
  | isInit, b, f => { f with isInit := b }
  | isDeposit, b, f => { f with isDeposit := b }

end FunctionFlag

namespace Context

variable (ctx : Context)

/-- Whether a value is a function with the flag. -/
def hasFlag (flag : FunctionFlag) (v : ValueId) : Bool :=
  ((ctx.value? v).bind Value.function?).any flag.get

/-- The metadata of a contract; none for anything else. -/
def metadata (v : ValueId) : List UInt8 :=
  match (ctx.value? v).map Value.payload with
  | some (.contract c) => c.metadata
  | _ => []

/-- The constant a storage slot is stored at. -/
def storageAddress? (v : ValueId) : Option ValueId :=
  match (ctx.value? v).map Value.payload with
  | some (.global address) => address
  | _ => none

end Context

namespace Edit

open Context

/-- Sets a flag of a function. -/
def setFlag (function : ValueId) (flag : FunctionFlag) (value : Bool) : Edit Unit := do
  let ctx ← context
  let _ ← ctx.read function
  modify fun ctx => ctx.update function fun x => x.mapFunction (flag.set value)

/-- Sets the metadata of a contract. -/
def setMetadata (contract : ValueId) (metadata : List UInt8) : Edit Unit := do
  let ctx ← context
  let _ ← ctx.read contract
  modify fun ctx => ctx.update contract fun x =>
    match x.payload with
    | .contract c => { x with payload := .contract { c with metadata } }
    | _ => x

/-- Sets the constant a storage slot is stored at. -/
def setStorageAddress (slot address : ValueId) : Edit Unit := do
  let ctx ← context
  let _ ← ctx.own address
  let _ ← ctx.read slot
  modify fun ctx => ctx.update slot fun x =>
    match x.payload with
    | .global _ => { x with payload := .global (some address) }
    | _ => x

end Edit

end ContractIR
