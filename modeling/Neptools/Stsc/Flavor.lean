import Neptools.Stsc.Items

/-!
The two instruction sets. The opcode decides the class of an instruction; one
that is not in the table is an instruction without a meaning, which is one byte
long, and two in the second set.
-/

namespace Neptools

open Lib

namespace Stsc

inductive Flavor
  | noire
  | potbb
  deriving Repr, DecidableEq

/-- The class of an instruction. -/
inductive InstructionType
  | simple (noReturn : Bool) (args : List ArgType)
  | rndJump
  | unimplemented
  | jumpIf
  | jumpSwitchNoire
  | jumpSwitchPotbb
  deriving Repr, DecidableEq

def noireMap : List (UInt8 × InstructionType) :=
  [(0x01, .simple true []), (0x04, .simple true []), (0x05, .simple false [.uint32]),
    (0x06, .simple false [.code]), (0x07, .simple true []), (0x0a, .simple false [.code]),
    (0x0b, .simple false [.uint8, .data]), (0x0c, .simple false [.uint8]), (0x0d, .rndJump),
    (0x0e, .simple false [.string]), (0x0f, .simple true [.string, .string]),
    (0x10, .simple false [.uint32, .code]), (0x11, .simple false [.uint32, .code]),
    (0x12, .simple false [.uint32, .uint8]),
    (0x13, .simple false [.uint32, .uint8, .uint32, .code]),
    (0x14, .simple false [.uint32, .uint8, .uint32, .code]),
    (0x15, .simple false [.uint32, .uint32]), (0x16, .simple false [.uint32, .uint32]),
    (0x17, .simple false [.uint32, .uint32]), (0x18, .simple false [.uint32, .uint32]),
    (0x19, .unimplemented), (0x1a, .simple false [.code]), (0x1b, .simple true []),
    (0x1c, .simple false [.uint8]), (0x1d, .jumpIf), (0x1e, .jumpSwitchNoire),
    (0x1f, .simple false [.uint32, .uint16]), (0x20, .simple false [.uint8, .data, .data]),
    (0x21, .simple false [.data, .data]), (0x22, .simple false [.data, .data]),
    (0x23, .simple false [.data, .data]), (0x24, .simple false [.uint32]),
    (0x30, .simple false [.string, .uint8, .uint8]), (0x31, .simple false [.uint8, .uint16]),
    (0x32, .simple false [.float, .uint16]), (0x33, .simple false [.uint32, .uint8]),
    (0x34, .simple false [.uint32, .uint16]), (0x35, .simple false [.uint32, .uint8]),
    (0x36, .simple false [.uint32, .float, .uint16]), (0x37, .simple false [.uint16]),
    (0x38, .simple false [.string]), (0x39, .simple false [.uint16]),
    (0x3a, .simple false [.uint8]), (0x3f, .simple false [.uint32]),
    (0x40, .simple false [.uint32, .uint16, .uint8]), (0x41, .simple false [.uint16]),
    (0x42, .simple false [.uint8]), (0x43, .simple false [.uint16, .uint16, .uint16, .uint8]),
    (0x44, .simple false [.float, .uint16, .uint8, .uint8]),
    (0x45, .simple false [.uint8, .uint32, .uint8, .uint16]),
    (0x46, .simple false [.uint8, .uint16]),
    (0x47, .simple false [.uint8, .uint16, .uint16, .uint16, .uint8]),
    (0x48, .simple false [.uint8, .uint16, .uint16, .uint16, .uint8]),
    (0x49, .simple false [.uint8, .float, .uint16, .uint8, .uint8]),
    (0x4a, .simple false [.uint8, .uint8]), (0x4b, .simple false [.uint8, .uint8, .uint16]),
    (0x4c, .simple false [.uint8, .uint32]), (0x4d, .simple false [.uint8, .uint8]),
    (0x4e, .simple false [.uint8, .float, .float, .uint16]), (0x4f, .simple false [.string]),
    (0x50, .simple false [.uint16, .uint16, .string]), (0x51, .simple false [.uint8]),
    (0x53, .simple false [.uint8]), (0x54, .simple false [.uint8, .uint8]),
    (0x55, .simple false [.uint8]), (0x57, .simple false [.uint8, .uint16]),
    (0x58, .simple false [.uint8, .uint16]),
    (0x59, .simple false [.uint8, .uint8, .uint8, .uint8]), (0x5a, .simple false [.uint32]),
    (0x5b, .simple false [.uint8]), (0x5c, .simple false [.uint32, .uint8]),
    (0x5d, .simple false [.uint8, .uint16]), (0x5e, .simple false [.uint8, .uint8]),
    (0x5f, .simple false [.uint16, .uint8, .uint8]),
    (0x60, .simple false [.uint32, .uint8, .uint8]), (0x61, .simple false [.uint32]),
    (0x62, .simple false [.string]), (0x63, .simple false [.uint8]),
    (0x64, .simple false [.uint8]), (0x65, .simple false [.uint8]), (0x66, .simple false [.uint8]),
    (0x67, .simple false [.uint32, .uint32]), (0x68, .simple false [.uint32]),
    (0x69, .simple false [.uint8, .uint32, .string]), (0x6a, .simple false [.uint16, .uint8]),
    (0x6b, .simple false [.uint8]), (0x6c, .simple false [.uint32]),
    (0x6d, .simple false [.uint8]), (0x6e, .simple false [.uint32]),
    (0x6f, .simple false [.string, .uint8]), (0x70, .simple false [.uint32]),
    (0x71, .simple true [.uint32]), (0x73, .simple false [.string]),
    (0x74, .simple false [.uint16]), (0x75, .simple false [.uint16, .uint8]),
    (0x76, .simple false [.uint8, .uint32]), (0x77, .simple false [.uint8, .string]),
    (0x78, .simple false [.uint16]), (0x79, .simple false [.uint8]),
    (0x7a, .simple false [.uint32]), (0x7b, .simple false [.uint8]),
    (0x7c, .simple false [.uint32]), (0x7d, .simple false [.string]),
    (0x7e, .simple false [.uint8, .uint32]), (0x7f, .simple false [.uint16, .uint8]),
    (0x80, .simple false [.uint32, .string]), (0x81, .simple true []),
    (0x82, .simple false [.uint32, .uint32, .uint32]), (0x83, .simple false [.uint32, .uint32]),
    (0x84, .simple false [.uint32]), (0x87, .simple false [.uint16, .uint8]),
    (0x88, .simple false [.uint16, .uint32]), (0x89, .simple false [.uint8, .uint8]),
    (0x8a, .simple false [.uint8, .uint32]), (0x8b, .simple false [.uint8, .uint32]),
    (0x8c, .simple false [.uint32, .uint32, .uint32]), (0x8d, .simple false [.uint8]),
    (0x8e, .simple false [.uint32]), (0x8f, .simple false [.uint32]),
    (0x90, .simple false [.uint32]), (0x91, .simple false [.uint32]),
    (0x92, .simple false [.uint32]), (0x93, .simple false [.string, .uint8, .uint32]),
    (0x94, .simple false [.uint32]), (0x95, .simple false [.string, .uint8]),
    (0x96, .simple false [.uint8]), (0x97, .simple false [.uint8]),
    (0x98, .simple false [.uint16, .uint32]), (0x99, .simple false [.uint32]),
    (0xa0, .simple false [.data]), (0xa1, .simple false [.uint8, .data, .uint16, .uint16]),
    (0xa2, .simple false [.uint16, .data, .uint16, .uint16]), (0xa3, .simple false [.string]),
    (0xa5, .simple false [.data]), (0xa6, .simple false [.uint8, .data, .uint16, .uint16]),
    (0xa7, .simple false [.uint8, .uint8]), (0xa8, .simple false [.uint8, .uint32]),
    (0xa9, .simple false [.uint32]), (0xaa, .simple false [.uint32]),
    (0xab, .simple false [.uint32]), (0xb0, .simple false [.uint16]),
    (0xb1, .simple false [.uint16, .uint32]), (0xb3, .simple false [.uint16, .uint32]),
    (0xb4, .simple false [.uint16]), (0xb5, .simple false [.uint8]),
    (0xd0, .simple false [.uint32, .uint8]), (0xd1, .simple false [.uint32, .uint8, .uint8]),
    (0xd2, .simple false [.uint32, .uint8, .uint8, .float]),
    (0xd3, .simple false [.uint32, .uint8]), (0xd4, .simple false [.uint32, .uint8]),
    (0xd5, .simple false [.uint32, .uint16, .float, .float, .float, .float, .uint8]),
    (0xd6, .simple false [.uint32]),
    (0xd7, .simple false [.uint32, .float, .float, .float, .float, .uint16, .uint8]),
    (0xd8, .simple false [.uint8, .uint8, .float, .float, .float, .float, .uint16, .uint8]),
    (0xd9, .simple false [.uint32, .uint8]), (0xda, .simple false [.uint8]),
    (0xdb, .simple false [.uint8, .uint16, .uint8, .uint8, .float, .uint8]),
    (0xdc, .simple false [.uint8]), (0xdd, .simple false [.uint32]),
    (0xdf, .simple false [.uint8]), (0xf0, .simple false [.uint8, .uint32]),
    (0xf1, .simple false [.uint8, .uint16]), (0xf2, .simple false [.uint8, .string]),
    (0xf3, .simple false [.uint8, .uint8]), (0xf4, .simple false [.string]),
    (0xf5, .simple false [.uint16, .uint8]), (0xf7, .simple false [.uint16, .uint8])]

def potbbMap : List (UInt8 × InstructionType) :=
  [(0x00, .simple false []), (0x01, .simple true []), (0x02, .simple true []),
    (0x03, .simple false [.uint8]), (0x04, .simple true []), (0x05, .simple false [.uint32]),
    (0x06, .simple false [.code]), (0x07, .simple true []), (0x08, .simple false []),
    (0x09, .simple false []), (0x0a, .simple false [.uint32]),
    (0x0b, .simple false [.uint8, .data]), (0x0c, .simple false [.uint8]), (0x0d, .rndJump),
    (0x0e, .simple false [.string]), (0x0f, .simple true [.string]),
    (0x10, .simple false [.uint32, .code]), (0x11, .simple false [.uint32, .code]),
    (0x12, .simple false [.uint32, .uint8]),
    (0x13, .simple false [.uint32, .uint8, .uint32, .code]),
    (0x14, .simple false [.uint32, .uint8, .uint32, .code]),
    (0x15, .simple false [.uint32, .uint32]), (0x16, .simple false [.uint32, .uint32]),
    (0x17, .simple false [.uint32, .uint32]), (0x18, .simple false [.uint32, .uint32]),
    (0x19, .unimplemented), (0x1a, .simple false [.code]), (0x1b, .simple true []),
    (0x1c, .simple true [.uint8]), (0x1d, .jumpIf), (0x1e, .jumpSwitchPotbb),
    (0x1f, .simple false [.uint32, .uint16]), (0x20, .simple false [.uint8, .data, .data]),
    (0x21, .simple false [.uint16]), (0x22, .simple false [.uint16]),
    (0x23, .simple false [.uint16]), (0x24, .simple false [.uint16]),
    (0x25, .simple false [.uint8, .uint16, .uint8]), (0x26, .simple false [.uint8]),
    (0x27, .simple false [.uint8]),
    (0x28, .simple false [.uint16, .uint8, .uint8, .uint16, .uint16, .uint16, .float, .uint8]),
    (0x29, .simple false [.uint8, .uint8]),
    (0x2a, .simple false [.uint8, .uint8, .uint8, .uint16, .uint8]),
    (0x2b, .simple false [.float, .uint8, .uint8]),
    (0x2c, .simple false [.float, .float, .uint16]), (0x2d, .simple false [.uint32]),
    (0x2e, .simple false [.uint32, .uint16]), (0x2f, .simple false [.uint16]),
    (0x30, .simple false [.string, .uint8, .uint8]), (0x31, .simple false [.uint8, .uint16]),
    (0x32, .simple false [.float, .uint16]), (0x33, .simple false [.uint32, .uint8]),
    (0x34, .simple false [.uint32, .uint16]), (0x35, .simple false [.uint32, .uint8]),
    (0x36, .simple false [.uint32, .float, .uint16]), (0x37, .simple false [.uint16]),
    (0x38, .simple false [.string]), (0x39, .simple false [.uint16]),
    (0x3a, .simple false [.uint8]), (0x3b, .simple false [.uint32]),
    (0x3e, .simple false [.uint32]), (0x3f, .simple false [.uint32]),
    (0x40, .simple false [.uint32, .uint16, .uint8]), (0x41, .simple false [.uint16]),
    (0x42, .simple false [.uint16, .uint16]),
    (0x43, .simple false [.uint16, .uint16, .uint16, .uint8]),
    (0x44, .simple false [.float, .uint16, .uint8, .uint8]),
    (0x45, .simple false [.uint8, .uint32, .uint8, .uint16]),
    (0x46, .simple false [.uint8, .uint16]),
    (0x47, .simple false [.uint8, .uint16, .uint16, .uint16, .uint8]),
    (0x48, .simple false [.uint8, .uint16, .uint16, .uint16, .uint8]),
    (0x49, .simple false [.uint8, .float, .uint16, .uint8, .uint8]),
    (0x4a, .simple false [.uint8, .uint8]),
    (0x4b, .simple false [.uint8, .uint8, .uint8, .uint16]), (0x4c, .simple false [.uint8]),
    (0x4d, .simple false [.uint16]), (0x4e, .simple false [.uint8, .float, .float, .uint16]),
    (0x4f, .simple false [.string]),
    (0x50, .simple false [.uint16, .uint16, .string, .uint8, .uint16]),
    (0x51, .simple false [.uint8]), (0x52, .simple false []), (0x53, .simple false [.uint8]),
    (0x54, .simple false [.uint16, .uint16]), (0x55, .simple false [.uint8]),
    (0x56, .simple false []), (0x57, .simple false [.uint16, .uint16]),
    (0x58, .simple false [.uint8, .uint8, .uint16]),
    (0x59, .simple false [.code, .string, .uint16]), (0x5a, .simple true []),
    (0x5b, .simple false [.uint32]), (0x5c, .simple false [.uint16]),
    (0x5d, .simple false [.uint8]), (0x5e, .simple false [.uint32]),
    (0x5f, .simple true [.uint16]), (0x60, .simple true [.string]),
    (0x61, .simple false [.uint32, .uint16]), (0x62, .simple false []),
    (0x63, .simple false [.uint8]), (0x64, .simple false [.uint8]), (0x65, .simple false [.uint8]),
    (0x66, .simple false [.uint8]), (0x67, .simple false []), (0x68, .simple false []),
    (0x69, .simple false [.string, .string]), (0x6a, .simple false [.string, .string]),
    (0x6b, .simple false [.uint8]), (0x6f, .simple false [.string, .uint8]),
    (0x70, .simple false [.uint16, .uint8]), (0x71, .simple false [.uint16, .uint8]),
    (0x72, .simple false [.uint8]), (0x73, .simple false [.string]),
    (0x78, .simple false [.uint16]), (0x79, .simple false [.uint16, .uint16]),
    (0x7a, .simple false [.uint8]), (0x7b, .simple false [.uint8])]

def instructionMap : Flavor → UInt8 → InstructionType
  | .noire, opcode => (noireMap.lookup opcode).getD (.simple false [])
  | .potbb, opcode => (potbbMap.lookup opcode).getD (.simple false [.uint8])

end Stsc

end Neptools
