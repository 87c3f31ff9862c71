/-! Scalar types: their names in source texts and in emitted code. -/

namespace DataParallel

inductive Scalar where
  | int32
  | int64
  | uint32
  | uint64
  | float32
  | float64
  | bool
  | void
deriving DecidableEq, Repr

namespace Scalar

def all : List Scalar := [.int32, .int64, .uint32, .uint64, .float32, .float64, .bool, .void]

def sourceName : Scalar → String
  | .int32 => "Int32"
  | .int64 => "Int64"
  | .uint32 => "Uint32"
  | .uint64 => "Uint64"
  | .float32 => "Float32"
  | .float64 => "Float64"
  | .bool => "Bool"
  | .void => "Void"

def targetName : Scalar → String
  | .int32 => "int"
  | .int64 => "long"
  | .uint32 => "unsigned int"
  | .uint64 => "unsigned long"
  | .float32 => "float"
  | .float64 => "double"
  | .bool => "bool"
  | .void => "void"

def ofSourceName? (name : String) : Option Scalar := all.find? (·.sourceName = name)

def isInteger : Scalar → Bool
  | .int32 | .int64 | .uint32 | .uint64 => true
  | _ => false

def isFloat : Scalar → Bool
  | .float32 | .float64 => true
  | _ => false

end Scalar
end DataParallel
