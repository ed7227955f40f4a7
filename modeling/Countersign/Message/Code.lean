import Countersign.Numeral

/-!
# Codes of the protocol

Host and device name instructions, results and phases by numbers. Each kind of code is a type with
`code`, the number on the wire, and `ofCode?`, which finds what a number stands for.
-/

namespace Countersign

/-- The text for a number that stands for nothing of its kind. -/
def unknownCode (kind : String) (value : Nat) : String :=
  "No discriminant in enum `" ++ kind ++ "` matches the value `" ++
    String.ofList (numeral value) ++ "`"

/-! ## Instructions -/

/-- What the host asks of the device. -/
inductive Instruction where
  /-- The version of the application. -/
  | getVersion
  /-- A public key and its address. -/
  | getPublicKey
  /-- A signature of a hash that the host gives. -/
  | signHash
  /-- The hash of a transaction, or a signature of it. -/
  | hashTransaction
deriving DecidableEq

namespace Instruction

/-- All instructions, in the order of their codes. -/
def all : List Instruction := [getVersion, getPublicKey, signHash, hashTransaction]

/-- The code of an instruction. -/
def code : Instruction → UInt8
  | getVersion => 0x01
  | getPublicKey => 0x02
  | signHash => 0x04
  | hashTransaction => 0x08

/-- The name of an instruction. -/
def name : Instruction → String
  | getVersion => "GetVersion"
  | getPublicKey => "GetPublicKey"
  | signHash => "SignHash"
  | hashTransaction => "CalcTxnHash"

/-- The instruction with this code. -/
def ofCode? (c : UInt8) : Option Instruction := all.find? (·.code = c)

end Instruction

/-! ## Results -/

/-- How a request ended, as the host is told. -/
inductive StatusWord where
  | ok
  /-- The host broke the rules of the transport. -/
  | developerError
  /-- A parameter or the transaction is not valid. -/
  | invalidParam
  /-- A transaction was not started in the right order. -/
  | improperInit
  /-- The user said no. -/
  | userRejected
  /-- The instruction is not known. -/
  | notSupported
deriving DecidableEq

namespace StatusWord

/-- All results, in the order in which they are listed. -/
def all : List StatusWord :=
  [ok, developerError, invalidParam, improperInit, userRejected, notSupported]

/-- The code of a result. -/
def code : StatusWord → UInt16
  | ok => 0x9000
  | developerError => 0x6b00
  | invalidParam => 0x6b01
  | improperInit => 0x6b02
  | userRejected => 0x6985
  | notSupported => 0x6d00

/-- The name of a result. -/
def name : StatusWord → String
  | ok => "Ok"
  | developerError => "DeveloperErr"
  | invalidParam => "InvalidParam"
  | improperInit => "ImproperInit"
  | userRejected => "UserRejected"
  | notSupported => "InsNotSupported"

/-- The result with this code. -/
def ofCode? (c : UInt16) : Option StatusWord := all.find? (·.code = c)

/-- The result with this name. -/
def ofName? (n : String) : Option StatusWord := all.find? (·.name = n)

/-- The code as it is sent, the high byte first. -/
def bytes (s : StatusWord) : List UInt8 := [(s.code >>> 8).toUInt8, s.code.toUInt8]

end StatusWord

/-! ## Phases -/

/-- How far the device has got with a transaction, as the host is told. -/
inductive Phase where
  | init
  | decoding
  | pending
  | complete
  | denied
  | error
deriving DecidableEq

namespace Phase

/-- All phases, in the order in which they are listed. -/
def all : List Phase := [init, decoding, pending, complete, denied, error]

/-- The code of a phase. -/
def code : Phase → UInt8
  | init => 0x00
  | decoding => 0x01
  | pending => 0x10
  | complete => 0x40
  | denied => 0x41
  | error => 0xff

/-- The name of a phase. -/
def name : Phase → String
  | init => "Init"
  | decoding => "Decoding"
  | pending => "Pending"
  | complete => "Complete"
  | denied => "Denied"
  | error => "Error"

/-- The phase with this code. -/
def ofCode? (c : UInt8) : Option Phase := all.find? (·.code = c)

/-- The phase with this name. -/
def ofName? (n : String) : Option Phase := all.find? (·.name = n)

end Phase

end Countersign
