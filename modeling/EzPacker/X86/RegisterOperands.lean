import EzPacker.X86.Immediates

/-!
# Register operands

The processor reads the registers of an instruction from the REX prefix and the addressing
byte. A byte register numbered four to seven is the low byte of that register behind a REX
prefix, and the second byte of register zero to three without one.
-/

namespace EzPacker.X86

open List

/-! ## The instructions with an addressing byte -/

/-- The register class of an operand, or the memory it is in. -/
inductive OperandClass
  | GPR (bits : ℕ)
  | FPR (bits : ℕ)
  | VR128
  | Mem (bits : ℕ)
  deriving DecidableEq, Repr

structure TargetInst where
  operands : List OperandClass
  encoding : EncodingDesc
  deriving DecidableEq, Repr

/-- A description without any of the optional directives. -/
def plainEncoding : EncodingDesc where
  form := .None
  prefixes := 0
  rexW := 0
  digit := 0xFF
  opcode := []
  operands := []
  sizeOperand := 0
  shiftByCL := false
  byteRex := false
  condCode := 0
  hasSseVariant := false
  ssePrefixes := 0
  sseOpcode := []
  vexL := 0xFF
  vexW := 0

def rexWOf (bits : ℕ) : BitVec 8 := if bits = 64 then 1 else 0

def TargetInst.aluRR (bits : ℕ) (opcode : UInt8) : TargetInst where
  operands := [.GPR bits, .GPR bits, .GPR bits]
  encoding :=
    { plainEncoding with
      form := .Rr
      opcode := [opcode]
      rexW := rexWOf bits
      operands := [⟨.Reg, 2⟩, ⟨.RmReg, 0⟩] }

def TargetInst.aluRM (bits : ℕ) (opcode : UInt8) : TargetInst where
  operands := [.GPR bits, .GPR bits, .Mem bits]
  encoding :=
    { plainEncoding with
      form := .Rm
      opcode := [opcode]
      rexW := rexWOf bits
      operands := [⟨.Reg, 0⟩, ⟨.RmMem, 2⟩] }

def TargetInst.imulRR (bits : ℕ) : TargetInst where
  operands := [.GPR bits, .GPR bits, .GPR bits]
  encoding :=
    { plainEncoding with
      form := .ImulRR
      opcode := [0x0F, 0xAF]
      rexW := rexWOf bits
      operands := [⟨.Reg, 0⟩, ⟨.RmReg, 2⟩] }

/-- Comparisons, tests and moves. Only the move of a byte has the directive for its prefix. -/
def TargetInst.pairRR (form : EncForm) (bits : ℕ) (opcode : UInt8) : TargetInst where
  operands := [.GPR bits, .GPR bits]
  encoding :=
    { plainEncoding with
      form := form
      opcode := [opcode]
      rexW := rexWOf bits
      byteRex := bits = 8
      operands := [⟨.Reg, 1⟩, ⟨.RmReg, 0⟩] }

/-- The prefix of the scalar variant of a load or a store. -/
def ssePrefixOf (bits : ℕ) : BitVec 8 :=
  if bits = 32 then EncPrefixF3 else if bits = 64 then EncPrefixF2 else 0

def TargetInst.load (bits : ℕ) : TargetInst where
  operands := [.GPR bits, .Mem bits]
  encoding :=
    { plainEncoding with
      form := .Rm
      opcode := [0x8B]
      rexW := rexWOf bits
      byteRex := bits = 8
      operands := [⟨.Reg, 0⟩, ⟨.RmMem, 1⟩]
      hasSseVariant := 32 ≤ bits
      ssePrefixes := ssePrefixOf bits
      sseOpcode := if 32 ≤ bits then [0x0F, 0x10] else [] }

def TargetInst.store (bits : ℕ) : TargetInst where
  operands := [.Mem bits, .GPR bits]
  encoding :=
    { plainEncoding with
      form := .Mr
      opcode := [0x89]
      rexW := rexWOf bits
      byteRex := bits = 8
      operands := [⟨.RmMem, 0⟩, ⟨.Reg, 1⟩]
      sizeOperand := 1
      hasSseVariant := 32 ≤ bits
      ssePrefixes := ssePrefixOf bits
      sseOpcode := if 32 ≤ bits then [0x0F, 0x11] else [] }

def TargetInst.extend (form : EncForm) (bits srcBits : ℕ) (opcode : List UInt8) : TargetInst where
  operands := [.GPR bits, .GPR srcBits]
  encoding :=
    { plainEncoding with
      form := form
      opcode := opcode
      rexW := rexWOf bits
      operands := [⟨.Reg, 0⟩, ⟨.RmReg, 1⟩] }

def TargetInst.lea : TargetInst where
  operands := [.GPR 64, .Mem 64]
  encoding :=
    { plainEncoding with
      form := .Lea
      opcode := [0x8D]
      rexW := 1
      operands := [⟨.Reg, 0⟩, ⟨.RmMem, 1⟩] }

def TargetInst.sse3 (prefixes : BitVec 8) (regs : OperandClass) (opcode : List UInt8) :
    TargetInst where
  operands := [regs, regs, regs]
  encoding :=
    { plainEncoding with
      form := .Sse
      prefixes := prefixes
      opcode := opcode
      operands := [⟨.Reg, 0⟩, ⟨.RmReg, 2⟩] }

def TargetInst.sse2 (prefixes : BitVec 8) (dst src : OperandClass) (opcode : List UInt8) :
    TargetInst where
  operands := [dst, src]
  encoding :=
    { plainEncoding with
      form := .Sse
      prefixes := prefixes
      opcode := opcode
      operands := [⟨.Reg, 0⟩, ⟨.RmReg, 1⟩] }

def TargetInst.cvt (prefixes rexW : BitVec 8) (dst src : OperandClass) (sizeOperand : BitVec 8)
    (opcode : List UInt8) : TargetInst where
  operands := [dst, src]
  encoding :=
    { plainEncoding with
      form := .Cvt
      prefixes := prefixes
      rexW := rexW
      opcode := opcode
      sizeOperand := sizeOperand
      operands := [⟨.Reg, 0⟩, ⟨.RmReg, 1⟩] }

inductive ModRMInst
  | ADD32rr | ADD32rm | ADD64rr | ADD64rm | SUB32rr | SUB32rm | SUB64rr | SUB64rm | IMUL32rr
  | IMUL64rr | AND32rr | AND64rr | OR32rr | OR64rr | XOR32rr | XOR64rr | CMP32rr | CMP64rr
  | TEST32rr | TEST64rr | MOV8rr | MOV16rr | MOV32rr | MOV64rr | LOAD8 | LOAD16 | LOAD32 | LOAD64
  | STORE8 | STORE16 | STORE32 | STORE64 | MOVSX32_8 | MOVSX32_16 | MOVSX64_8 | MOVSX64_16
  | MOVSX64_32 | MOVZX32_8 | MOVZX32_16 | MOVZX64_8 | MOVZX64_16 | LEA64r | ADDSS | ADDSD | SUBSS
  | SUBSD | MULSS | MULSD | DIVSS | DIVSD | MOVSSrr | MOVSDrr | UCOMISS | UCOMISD | CVTSI2SS
  | CVTSI2SD | CVTTSS2SI | CVTTSD2SI | CVTSI2SS64 | CVTSI2SD32 | CVTTSS2SI64 | CVTTSD2SI32
  | CVTSS2SD | CVTSD2SS | ADDPSrr | SUBPSrr | MULPSrr | DIVPSrr | ANDPSrr | ORPSrr | XORPSrr
  | ANDNPSrr | MAXPSrr | MINPSrr | MOVAPSrr | MOVUPSrr | ADDPDrr | SUBPDrr | MULPDrr | DIVPDrr
  | ANDPDrr | ORPDrr | XORPDrr | ANDNPDrr | MAXPDrr | MINPDrr | MOVAPDrr | MOVUPDrr | PADDBrr
  | PADDWrr | PADDDrr | PADDQrr | PSUBBrr | PSUBWrr | PSUBDrr | PSUBQrr | PMULLWrr | PANDrr
  | PORrr | PXORrr | MOVDQArr | MOVDQUrr | HADDPSrr | HADDPDrr | HSUBPSrr | HSUBPDrr | ADDSUBPSrr
  | ADDSUBPDrr | PHADDDrr | PHSUBDrr | PABSDrr | PSHUFBrr | PMULLDrr | PMAXSDrr | PMINSDrr
  | PCMPGTQrr

def ModRMInst.target : ModRMInst → TargetInst
  | .ADD32rr => .aluRR 32 0x01
  | .ADD32rm => .aluRM 32 0x03
  | .ADD64rr => .aluRR 64 0x01
  | .ADD64rm => .aluRM 64 0x03
  | .SUB32rr => .aluRR 32 0x29
  | .SUB32rm => .aluRM 32 0x2B
  | .SUB64rr => .aluRR 64 0x29
  | .SUB64rm => .aluRM 64 0x2B
  | .IMUL32rr => .imulRR 32
  | .IMUL64rr => .imulRR 64
  | .AND32rr => .aluRR 32 0x21
  | .AND64rr => .aluRR 64 0x21
  | .OR32rr => .aluRR 32 0x09
  | .OR64rr => .aluRR 64 0x09
  | .XOR32rr => .aluRR 32 0x31
  | .XOR64rr => .aluRR 64 0x31
  | .CMP32rr => .pairRR .Rr 32 0x39
  | .CMP64rr => .pairRR .Rr 64 0x39
  | .TEST32rr => .pairRR .Test 32 0x85
  | .TEST64rr => .pairRR .Test 64 0x85
  | .MOV8rr => .pairRR .Rr 8 0x89
  | .MOV16rr => .pairRR .Rr 16 0x89
  | .MOV32rr => .pairRR .Rr 32 0x89
  | .MOV64rr => .pairRR .Rr 64 0x89
  | .LOAD8 => .load 8
  | .LOAD16 => .load 16
  | .LOAD32 => .load 32
  | .LOAD64 => .load 64
  | .STORE8 => .store 8
  | .STORE16 => .store 16
  | .STORE32 => .store 32
  | .STORE64 => .store 64
  | .MOVSX32_8 => .extend .Movsx 32 8 [0x0F, 0xBE]
  | .MOVSX32_16 => .extend .Movsx 32 16 [0x0F, 0xBF]
  | .MOVSX64_8 => .extend .Movsx 64 8 [0x0F, 0xBE]
  | .MOVSX64_16 => .extend .Movsx 64 16 [0x0F, 0xBF]
  | .MOVSX64_32 => .extend .Movsx 64 32 [0x63]
  | .MOVZX32_8 => .extend .Movzx 32 8 [0x0F, 0xB6]
  | .MOVZX32_16 => .extend .Movzx 32 16 [0x0F, 0xB7]
  | .MOVZX64_8 => .extend .Movzx 64 8 [0x0F, 0xB6]
  | .MOVZX64_16 => .extend .Movzx 64 16 [0x0F, 0xB7]
  | .LEA64r => .lea
  | .ADDSS => .sse3 EncPrefixF3 (.FPR 32) [0x0F, 0x58]
  | .ADDSD => .sse3 EncPrefixF2 (.FPR 64) [0x0F, 0x58]
  | .SUBSS => .sse3 EncPrefixF3 (.FPR 32) [0x0F, 0x5C]
  | .SUBSD => .sse3 EncPrefixF2 (.FPR 64) [0x0F, 0x5C]
  | .MULSS => .sse3 EncPrefixF3 (.FPR 32) [0x0F, 0x59]
  | .MULSD => .sse3 EncPrefixF2 (.FPR 64) [0x0F, 0x59]
  | .DIVSS => .sse3 EncPrefixF3 (.FPR 32) [0x0F, 0x5E]
  | .DIVSD => .sse3 EncPrefixF2 (.FPR 64) [0x0F, 0x5E]
  | .MOVSSrr => .sse2 EncPrefixF3 (.FPR 32) (.FPR 32) [0x0F, 0x10]
  | .MOVSDrr => .sse2 EncPrefixF2 (.FPR 64) (.FPR 64) [0x0F, 0x10]
  | .UCOMISS => .sse2 0 (.FPR 32) (.FPR 32) [0x0F, 0x2E]
  | .UCOMISD => .sse2 EncPrefix66 (.FPR 64) (.FPR 64) [0x0F, 0x2E]
  | .CVTSI2SS => .cvt EncPrefixF3 2 (.FPR 32) (.GPR 32) 1 [0x0F, 0x2A]
  | .CVTSI2SD => .cvt EncPrefixF2 2 (.FPR 64) (.GPR 64) 1 [0x0F, 0x2A]
  | .CVTTSS2SI => .cvt EncPrefixF3 2 (.GPR 32) (.FPR 32) 0 [0x0F, 0x2C]
  | .CVTTSD2SI => .cvt EncPrefixF2 2 (.GPR 64) (.FPR 64) 0 [0x0F, 0x2C]
  | .CVTSI2SS64 => .cvt EncPrefixF3 1 (.FPR 32) (.GPR 64) 1 [0x0F, 0x2A]
  | .CVTSI2SD32 => .cvt EncPrefixF2 0 (.FPR 64) (.GPR 32) 1 [0x0F, 0x2A]
  | .CVTTSS2SI64 => .cvt EncPrefixF3 1 (.GPR 64) (.FPR 32) 0 [0x0F, 0x2C]
  | .CVTTSD2SI32 => .cvt EncPrefixF2 0 (.GPR 32) (.FPR 64) 0 [0x0F, 0x2C]
  | .CVTSS2SD => .sse2 EncPrefixF3 (.FPR 64) (.FPR 32) [0x0F, 0x5A]
  | .CVTSD2SS => .sse2 EncPrefixF2 (.FPR 32) (.FPR 64) [0x0F, 0x5A]
  | .ADDPSrr => .sse3 0 .VR128 [0x0F, 0x58]
  | .SUBPSrr => .sse3 0 .VR128 [0x0F, 0x5C]
  | .MULPSrr => .sse3 0 .VR128 [0x0F, 0x59]
  | .DIVPSrr => .sse3 0 .VR128 [0x0F, 0x5E]
  | .ANDPSrr => .sse3 0 .VR128 [0x0F, 0x54]
  | .ORPSrr => .sse3 0 .VR128 [0x0F, 0x56]
  | .XORPSrr => .sse3 0 .VR128 [0x0F, 0x57]
  | .ANDNPSrr => .sse3 0 .VR128 [0x0F, 0x55]
  | .MAXPSrr => .sse3 0 .VR128 [0x0F, 0x5F]
  | .MINPSrr => .sse3 0 .VR128 [0x0F, 0x5D]
  | .MOVAPSrr => .sse2 0 .VR128 .VR128 [0x0F, 0x28]
  | .MOVUPSrr => .sse2 0 .VR128 .VR128 [0x0F, 0x10]
  | .ADDPDrr => .sse3 EncPrefix66 .VR128 [0x0F, 0x58]
  | .SUBPDrr => .sse3 EncPrefix66 .VR128 [0x0F, 0x5C]
  | .MULPDrr => .sse3 EncPrefix66 .VR128 [0x0F, 0x59]
  | .DIVPDrr => .sse3 EncPrefix66 .VR128 [0x0F, 0x5E]
  | .ANDPDrr => .sse3 EncPrefix66 .VR128 [0x0F, 0x54]
  | .ORPDrr => .sse3 EncPrefix66 .VR128 [0x0F, 0x56]
  | .XORPDrr => .sse3 EncPrefix66 .VR128 [0x0F, 0x57]
  | .ANDNPDrr => .sse3 EncPrefix66 .VR128 [0x0F, 0x55]
  | .MAXPDrr => .sse3 EncPrefix66 .VR128 [0x0F, 0x5F]
  | .MINPDrr => .sse3 EncPrefix66 .VR128 [0x0F, 0x5D]
  | .MOVAPDrr => .sse2 EncPrefix66 .VR128 .VR128 [0x0F, 0x28]
  | .MOVUPDrr => .sse2 EncPrefix66 .VR128 .VR128 [0x0F, 0x10]
  | .PADDBrr => .sse3 EncPrefix66 .VR128 [0x0F, 0xFC]
  | .PADDWrr => .sse3 EncPrefix66 .VR128 [0x0F, 0xFD]
  | .PADDDrr => .sse3 EncPrefix66 .VR128 [0x0F, 0xFE]
  | .PADDQrr => .sse3 EncPrefix66 .VR128 [0x0F, 0xD4]
  | .PSUBBrr => .sse3 EncPrefix66 .VR128 [0x0F, 0xF8]
  | .PSUBWrr => .sse3 EncPrefix66 .VR128 [0x0F, 0xF9]
  | .PSUBDrr => .sse3 EncPrefix66 .VR128 [0x0F, 0xFA]
  | .PSUBQrr => .sse3 EncPrefix66 .VR128 [0x0F, 0xFB]
  | .PMULLWrr => .sse3 EncPrefix66 .VR128 [0x0F, 0xD5]
  | .PANDrr => .sse3 EncPrefix66 .VR128 [0x0F, 0xDB]
  | .PORrr => .sse3 EncPrefix66 .VR128 [0x0F, 0xEB]
  | .PXORrr => .sse3 EncPrefix66 .VR128 [0x0F, 0xEF]
  | .MOVDQArr => .sse2 EncPrefix66 .VR128 .VR128 [0x0F, 0x6F]
  | .MOVDQUrr => .sse2 EncPrefixF3 .VR128 .VR128 [0x0F, 0x6F]
  | .HADDPSrr => .sse3 EncPrefixF2 .VR128 [0x0F, 0x7C]
  | .HADDPDrr => .sse3 EncPrefix66 .VR128 [0x0F, 0x7C]
  | .HSUBPSrr => .sse3 EncPrefixF2 .VR128 [0x0F, 0x7D]
  | .HSUBPDrr => .sse3 EncPrefix66 .VR128 [0x0F, 0x7D]
  | .ADDSUBPSrr => .sse3 EncPrefixF2 .VR128 [0x0F, 0xD0]
  | .ADDSUBPDrr => .sse3 EncPrefix66 .VR128 [0x0F, 0xD0]
  | .PHADDDrr => .sse3 EncPrefix66 .VR128 [0x0F, 0x38, 0x02]
  | .PHSUBDrr => .sse3 EncPrefix66 .VR128 [0x0F, 0x38, 0x06]
  | .PABSDrr => .sse2 EncPrefix66 .VR128 .VR128 [0x0F, 0x38, 0x1E]
  | .PSHUFBrr => .sse3 EncPrefix66 .VR128 [0x0F, 0x38, 0x00]
  | .PMULLDrr => .sse3 EncPrefix66 .VR128 [0x0F, 0x38, 0x40]
  | .PMAXSDrr => .sse3 EncPrefix66 .VR128 [0x0F, 0x38, 0x3D]
  | .PMINSDrr => .sse3 EncPrefix66 .VR128 [0x0F, 0x38, 0x39]
  | .PCMPGTQrr => .sse3 EncPrefix66 .VR128 [0x0F, 0x38, 0x37]

/-! ## Decoding -/

/-- A register as the processor finds it. -/
inductive RegisterName
  | general (number : BitVec 8)
  | secondByte (number : BitVec 8)
  | vector (number : BitVec 8)
  | mmx (number : BitVec 8)
  deriving DecidableEq, Repr

/-- What a register field of an opcode counts. -/
inductive FieldFile
  | byte
  | general
  | vector
  | mmx
  deriving DecidableEq, Repr

/-- Without a REX prefix the numbers four to seven are AH, CH, DH and BH in a byte field. -/
def FieldFile.name (file : FieldFile) (hasRex : Bool) (number : BitVec 8) : RegisterName :=
  match file with
  | .byte =>
    if hasRex = false ∧ 4 ≤ number ∧ number < 8 then .secondByte (number - 4)
    else .general number
  | .general => .general number
  | .vector => .vector number
  | .mmx => .mmx number

/-- The fields of the r/m operand. -/
inductive RmName
  | register (name : RegisterName)
  | memory (base : AddressBase) (index : Option (BitVec 8))
  deriving DecidableEq, Repr

abbrev OpcodeFiles := FieldFile × FieldFile

/-- The lowest bit of these opcodes is the width. -/
def widthFile (opcode : UInt8) : FieldFile := if opcode &&& 1 = 0 then .byte else .general

def oneByteFiles (opcode : UInt8) : Option OpcodeFiles :=
  if opcode < 0x40 ∧ opcode &&& 7 < 4 then some (widthFile opcode, widthFile opcode)
  else if 0x84 ≤ opcode ∧ opcode ≤ 0x8B then some (widthFile opcode, widthFile opcode)
  else if opcode = 0x63 ∨ opcode = 0x8D then some (.general, .general)
  else none

/-- An F2 or F3 prefix selects the scalar conversions. -/
def isScalar (prefixes : List UInt8) : Bool := 0xF2 ∈ prefixes ∨ 0xF3 ∈ prefixes

/-- The integer vector instructions act on MMX registers without any of these prefixes. -/
def simdFile (prefixes : List UInt8) : FieldFile :=
  if isScalar prefixes ∨ 0x66 ∈ prefixes then .vector else .mmx

def twoByteFiles (prefixes : List UInt8) (opcode : UInt8) : Option OpcodeFiles :=
  if opcode = 0xAF ∨ opcode = 0xB7 ∨ opcode = 0xBF then some (.general, .general)
  else if opcode = 0xB6 ∨ opcode = 0xBE then some (.general, .byte)
  else if opcode = 0x10 ∨ opcode = 0x11 ∨ opcode = 0x28 ∨ opcode = 0x2E ∨
      (0x54 ≤ opcode ∧ opcode ≤ 0x5F) then some (.vector, .vector)
  else if opcode = 0x2A then some (.vector, if isScalar prefixes then .general else .mmx)
  else if opcode = 0x2C then some (if isScalar prefixes then .general else .mmx, .vector)
  else if opcode = 0x6F ∨ opcode = 0x7C ∨ opcode = 0x7D ∨ 0xD0 ≤ opcode then
    some (simdFile prefixes, simdFile prefixes)
  else none

def decodeOpcode (prefixes : List UInt8) : List UInt8 → Option (OpcodeFiles × List UInt8)
  | [] => none
  | 0x0F :: 0x38 :: _ :: rest => some ((simdFile prefixes, simdFile prefixes), rest)
  | 0x0F :: opcode :: rest => (twoByteFiles prefixes opcode).map fun files => (files, rest)
  | opcode :: rest => (oneByteFiles opcode).map fun files => (files, rest)

/-- The registers that the addressing byte names, when nothing is left behind the address. -/
def decodeAddressing (rex : Rex) (hasRex : Bool) (files : OpcodeFiles) :
    List UInt8 → Option (RegisterName × RmName)
  | [] => none
  | modrm :: rest =>
    let reg := files.1.name hasRex (extended rex.r (regOf modrm))
    if modOf modrm = 3 then
      if rest = [] then
        some (reg, .register (files.2.name hasRex (extended rex.b (rmOf modrm))))
      else none
    else
      (decodeMemory rex (modrm :: rest)).bind fun decoded =>
        if decoded.2.2 = [] then
          some (reg, .memory decoded.2.1.base (decoded.2.1.index.map Prod.fst))
        else none

/-- The register and the r/m operand of an instruction. -/
def decodeRegisters (bytes : List UInt8) : Option (RegisterName × RmName) :=
  let prefixes := bytes.takeWhile isLegacyPrefix
  let rest := bytes.dropWhile isLegacyPrefix
  (decodeOpcode prefixes (decodeRexPrefix rest).2).bind fun decoded =>
    decodeAddressing (decodeRexPrefix rest).1 ((rest.head?.map isRexByte).getD false) decoded.1
      decoded.2

/-! ## Operands -/

def ResolvedOperand.register (op : ResolvedOperand) : RegisterName :=
  if op.isFpr then .vector op.reg else .general op.reg

def ResolvedOperand.rm (op : ResolvedOperand) : RmName :=
  if op.kind = .Memory then
    .memory op.mem.address.base (op.mem.address.index.map Prod.fst)
  else .register op.register

/-- A hardware register, or none. -/
def IsHardware (number : BitVec 8) : Prop := number = NoReg ∨ number < 16

/-- An operand of a class, with hardware registers. -/
def OperandClass.Takes (operandClass : OperandClass) (op : ResolvedOperand) : Prop :=
  match operandClass with
  | .Mem _ => op.kind = .Memory ∧ IsHardware op.mem.base ∧ IsHardware op.mem.index
  | _ => op.kind = .Register ∧ op.reg < 16

/-- The encoder succeeds, and the bytes name the registers of the operands. -/
def RegistersExact (desc : EncodingDesc) (operands : List ResolvedOperand) : Prop :=
  ∃ encoded regOp rmOp, encodeModRMForm desc operands = some encoded ∧
      resolve desc operands .Reg = some regOp ∧
      (resolveRm desc operands).map Prod.fst = some rmOp ∧
      decodeRegisters encoded.1 = some (regOp.register, rmOp.rm)

/-! ## The operands that are encoded exactly -/

def TargetInst.classOf (inst : TargetInst) (slot : EncSlotKind) : Option OperandClass :=
  (findBinding inst.encoding slot).bind fun binding =>
    inst.operands[binding.operandIndex.toNat]?

def OperandClass.isVector : OperandClass → Bool
  | .FPR _ | .VR128 => true
  | _ => false

/-- A register of the file that the slot has. Loads and stores have a variant for each file. -/
def TargetInst.FileFits (inst : TargetInst) (slot : EncSlotKind) (op : ResolvedOperand) : Prop :=
  inst.encoding.hasSseVariant = true ∨ (inst.classOf slot).map OperandClass.isVector = some op.isFpr

def TargetInst.ReadsByte (inst : TargetInst) (operands : List ResolvedOperand)
    (slot : EncSlotKind) : Prop :=
  if byteForm inst.encoding.form then resolveSize inst.encoding operands = 1
  else inst.classOf slot = some (.GPR 8)

/-- A register of the operand has a number that needs a bit of the REX prefix. -/
def ResolvedOperand.Extended (op : ResolvedOperand) : Prop :=
  if op.kind = .Memory then
    op.mem.ripRel = false ∧
      ((op.mem.base ≠ NoReg ∧ 8 ≤ op.mem.base) ∨ (op.mem.index ≠ NoReg ∧ 8 ≤ op.mem.index))
  else 8 ≤ op.reg

/-- The instruction has a REX prefix in front of byte registers. -/
def TargetInst.HasRex (inst : TargetInst) (operands : List ResolvedOperand) : Prop :=
  rexWanted inst.encoding.rexW (resolveSize inst.encoding operands) = true ∨
    (resolveSize inst.encoding operands = 1 ∧ inst.encoding.byteRex = true) ∨
    ∃ slot op, (slot = .Reg ∨ slot = .RmReg ∨ slot = .RmMem) ∧
      resolve inst.encoding operands slot = some op ∧ op.Extended

/-- A general register with a number from four to seven. -/
def ResolvedOperand.isShadowed (op : ResolvedOperand) : Prop :=
  op.isFpr = false ∧ 4 ≤ op.reg ∧ op.reg < 8

/-- The registers that the instruction can name. -/
structure TargetInst.RegistersFit (inst : TargetInst) (operands : List ResolvedOperand) :
    Prop where
  files : ∀ slot op, (slot = .Reg ∨ slot = .RmReg) →
    resolve inst.encoding operands slot = some op → inst.FileFits slot op
  index : ∀ op, resolve inst.encoding operands .RmMem = some op →
    op.mem.index = NoReg ∨ (op.mem.ripRel = false ∧ op.mem.index ≠ 4)
  bytes : ∀ slot op, (slot = .Reg ∨ slot = .RmReg) →
    resolve inst.encoding operands slot = some op → inst.ReadsByte operands slot →
    op.isShadowed → inst.HasRex operands

/-! ## The parts of an encoded instruction -/

def usesSse (desc : EncodingDesc) (regOp : ResolvedOperand) : Bool :=
  desc.hasSseVariant && regOp.isFpr

def encodedPrefixes (desc : EncodingDesc) (regOp : ResolvedOperand) (sizeBytes : BitVec 8) :
    List UInt8 :=
  emitLegacyPrefixes (if usesSse desc regOp then desc.ssePrefixes else desc.prefixes)
    (!usesSse desc regOp && sizeBytes = 2)

def encodedOpcode (desc : EncodingDesc) (regOp : ResolvedOperand) (sizeBytes : BitVec 8) :
    List UInt8 :=
  let opcode := if usesSse desc regOp then desc.sseOpcode else desc.opcode
  if !usesSse desc regOp && sizeBytes = 1 && byteForm desc.form then decrementLast opcode
  else opcode

/-- The bits of the REX prefix before the addressing byte. -/
def startRex (desc : EncodingDesc) (regOp : ResolvedOperand) (sizeBytes : BitVec 8) : Rex :=
  ⟨if usesSse desc regOp then false else rexWanted desc.rexW sizeBytes, extBit regOp.reg, false,
    false⟩

def rexForced (desc : EncodingDesc) (sizeBytes : BitVec 8) (regOp rmOp : ResolvedOperand)
    (rmIsMemory : Bool) : Bool :=
  forcesRex desc sizeBytes regOp.reg || (!rmIsMemory && forcesRex desc sizeBytes rmOp.reg)

variable {rmIsMemory : Bool}

section Parts

variable {desc : EncodingDesc} {operands : List ResolvedOperand} {regOp rmOp : ResolvedOperand}

theorem encodeModRMForm_bytes (hreg : resolve desc operands .Reg = some regOp)
    (hrm : resolveRm desc operands = some (rmOp, rmIsMemory))
    (hkind : regOp.kind = .Register ∧ isRm rmOp) : let sizeBytes := resolveSize desc operands
    let built := buildModRM (low3 regOp.reg) rmOp rmIsMemory (startRex desc regOp sizeBytes)
    (encodeModRMForm desc operands).map Prod.fst = some (encodedPrefixes desc regOp sizeBytes ++
        (emitRex built.2 (rexForced desc sizeBytes regOp rmOp rmIsMemory) ++
          (encodedOpcode desc regOp sizeBytes ++ built.1.bytes))) := by
  intro sizeBytes built
  unfold encodeModRMForm
  rw [hreg, hrm]
  dsimp only
  rw [if_pos hkind]
  simp only [Option.map_some, append_assoc]
  rfl

/-! ## Reading the prefixes and the opcode -/

variable {byte : UInt8} {files : OpcodeFiles} {opcode : List UInt8}

theorem isLegacyPrefix_of_mem {prefixes : BitVec 8} {size16 : Bool}
    (h : byte ∈ emitLegacyPrefixes prefixes size16) : isLegacyPrefix byte = true := by
  have hone {P : Prop} [Decidable P] {b : UInt8} (hb : isLegacyPrefix b = true)
      (hmem : byte ∈ if P then [b] else []) : isLegacyPrefix byte = true := by
    split at hmem
    · rw [mem_singleton.mp hmem, hb]
    · exact absurd hmem not_mem_nil
  unfold emitLegacyPrefixes at h
  simp only [mem_append] at h
  obtain (((h | h) | h) | h) | h := h
  all_goals exact hone rfl h

theorem oneByteFiles_none (h : isLegacyPrefix byte = true ∨ isRexByte byte = true) :
    oneByteFiles byte = none := by
  obtain ⟨bits⟩ := byte
  revert bits
  decide +kernel

theorem decodeOpcode_one (prefixes : List UInt8) (h : byte ≠ 0x0F) (rest : List UInt8) :
    decodeOpcode prefixes (byte :: rest) = (oneByteFiles byte).map fun files => (files, rest) := by
  unfold decodeOpcode
  split
  next heq => exact absurd heq (cons_ne_nil _ _)
  next heq => exact absurd (cons.inj heq).1 h
  next heq => exact absurd (cons.inj heq).1 h
  next heq =>
    obtain ⟨hbyte, hrest⟩ := cons.inj heq
    rw [hbyte, hrest]

theorem decodeOpcode_two (prefixes : List UInt8) (h : byte ≠ 0x38) (rest : List UInt8) :
    decodeOpcode prefixes (0x0F :: byte :: rest) =
      (twoByteFiles prefixes byte).map fun files => (files, rest) := by
  unfold decodeOpcode
  split
  next heq => exact absurd heq (cons_ne_nil _ _)
  next heq => exact absurd (cons.inj (cons.inj heq).2).1 h
  next heq =>
    obtain ⟨hbyte, hrest⟩ := cons.inj (cons.inj heq).2
    rw [hbyte, hrest]
  next hne heq =>
    obtain ⟨hbyte, hrest⟩ := cons.inj heq
    exact absurd hrest.symm (hne byte rest hbyte.symm)

/-- An opcode does not start like a prefix. -/
theorem opcode_head {prefixes : List UInt8} {rest : List UInt8}
    (h : decodeOpcode prefixes (byte :: opcode) = some (files, rest)) :
    isLegacyPrefix byte = false ∧ isRexByte byte = false := by
  by_cases hescape : byte = 0x0F
  · rw [hescape]
    exact ⟨rfl, rfl⟩
  · rw [decodeOpcode_one prefixes hescape] at h
    constructor
    · by_contra hcon
      rw [oneByteFiles_none (Or.inl (Bool.of_not_eq_false hcon))] at h
      exact absurd h (by simp)
    · by_contra hcon
      rw [oneByteFiles_none (Or.inr (Bool.of_not_eq_false hcon))] at h
      exact absurd h (by simp)

/-- The bytes behind an opcode do not matter to it. -/
theorem decodeOpcode_append {prefixes : List UInt8}
    (h : decodeOpcode prefixes opcode = some (files, [])) (rest : List UInt8) :
    decodeOpcode prefixes (opcode ++ rest) = some (files, rest) := by
  match opcode with
  | [] => exact absurd h (by simp [decodeOpcode])
  | byte :: opcode =>
    by_cases hescape : byte = 0x0F
    · subst hescape
      match opcode with
      | [] =>
        have hnone : oneByteFiles 0x0F = none := by decide +kernel
        exact absurd h (by simp [decodeOpcode, hnone])
      | second :: opcode =>
        by_cases hmap : second = 0x38
        · subst hmap
          match opcode with
          | [] => exact absurd h (by simp [decodeOpcode, twoByteFiles])
          | third :: opcode =>
            simp only [decodeOpcode, Option.some.injEq, Prod.mk.injEq] at h
            obtain ⟨rfl, rfl⟩ := h
            rfl
        · rw [decodeOpcode_two prefixes hmap] at h
          obtain ⟨found, hfound, heq⟩ := Option.map_eq_some_iff.mp h
          obtain ⟨rfl, rfl⟩ := Prod.mk.inj heq
          rw [cons_append, cons_append, nil_append, decodeOpcode_two prefixes hmap, hfound]
          rfl
    · rw [decodeOpcode_one prefixes hescape] at h
      obtain ⟨found, hfound, heq⟩ := Option.map_eq_some_iff.mp h
      obtain ⟨rfl, rfl⟩ := Prod.mk.inj heq
      rw [cons_append, nil_append, decodeOpcode_one prefixes hescape, hfound]
      rfl

/-- The parts of an instruction are found one behind the other. -/
theorem decodeRegisters_emit {prefixes : BitVec 8} {size16 : Bool} (rex : Rex) (forceRex : Bool)
    (h : decodeOpcode (emitLegacyPrefixes prefixes size16) opcode = some (files, []))
    (rest : List UInt8) : decodeRegisters (emitLegacyPrefixes prefixes size16 ++
        (emitRex rex forceRex ++ (opcode ++ rest))) =
      decodeAddressing rex (rex.isNeeded || forceRex) files rest := by
  match opcode with
  | [] => exact absurd h (by simp [decodeOpcode])
  | byte :: opcode =>
    obtain ⟨hlegacy, hrex⟩ := opcode_head h
    have hhead : ∃ first tail, emitRex rex forceRex ++ (byte :: opcode ++ rest) =
        first :: tail ∧ isLegacyPrefix first = false ∧
          isRexByte first = (rex.isNeeded || forceRex) := by
      unfold emitRex
      split
      next hc =>
        exact ⟨_, _, rfl, isLegacyPrefix_of_rex (isRexByte_encode rex),
          (isRexByte_encode rex).trans hc.symm⟩
      next hc => exact ⟨_, _, rfl, hlegacy, hrex.trans (Bool.of_not_eq_true hc).symm⟩
    obtain ⟨first, tail, hfirst, hlegacy', hpresent⟩ := hhead
    have hall : ∀ b ∈ emitLegacyPrefixes prefixes size16, isLegacyPrefix b = true :=
      fun b hb => isLegacyPrefix_of_mem hb
    have htail : first :: tail = emitRex rex forceRex ++ byte :: (opcode ++ rest) := by
      rw [← hfirst, List.cons_append]
    unfold decodeRegisters
    rw [hfirst, List.takeWhile_append_of_pos hall, List.dropWhile_append_of_pos hall,
      List.takeWhile_cons_of_neg (by simp [hlegacy']),
      List.dropWhile_cons_of_neg (by simp [hlegacy']), List.append_nil]
    dsimp only
    rw [List.head?_cons, Option.map_some, Option.getD_some, hpresent, htail,
      decodeRexPrefix_emitRex rex forceRex hrex, ← List.cons_append, decodeOpcode_append h]
    rfl

/-! ## Reading the addressing byte -/

theorem decodeAddressing_register (reg rm : BitVec 8) (rex : Rex) (hasRex : Bool)
    (files : OpcodeFiles) (hr : rex.r = extBit reg) (hb : rex.b = extBit rm) :
    decodeAddressing rex hasRex files [encodeModRM 3 (low3 reg) (low3 rm)] =
      some (files.1.name hasRex (low4 reg), .register (files.2.name hasRex (low4 rm))) := by
  obtain ⟨hmod, hreg, hrm⟩ := fields_encodeModRM 3 (low3 reg) (low3 rm)
  unfold decodeAddressing
  dsimp only
  rw [hmod, hreg, hrm, hr, hb, extended_low3, extended_low3, if_pos (by decide), if_pos rfl]

theorem decodeMemory_register {rex : Rex} {bytes : List UInt8}
    {decoded : BitVec 3 × Address × List UInt8} (h : decodeMemory rex bytes = some decoded) :
    ∃ modrm rest, bytes = modrm :: rest ∧ modOf modrm ≠ 3 ∧ regOf modrm = decoded.1 := by
  match bytes with
  | [] => exact absurd h (by simp [decodeMemory])
  | modrm :: rest =>
    unfold decodeMemory at h
    dsimp only at h
    split at h
    next => exact absurd h (by simp)
    next hmod =>
      refine ⟨modrm, rest, rfl, hmod, ?_⟩
      split at h
      next =>
        split at h
        next => exact absurd h (by simp)
        next =>
          split at h
          all_goals
            obtain ⟨found, -, heq⟩ := Option.map_eq_some_iff.mp h
            rw [← heq]
      next =>
        split at h
        all_goals
          obtain ⟨found, -, heq⟩ := Option.map_eq_some_iff.mp h
          rw [← heq]

theorem decodeAddressing_memory (hasRex : Bool) (files : OpcodeFiles) (reg : BitVec 8)
    (mem : EncMemory) (w : Bool) :
    let built := buildMemoryModRM (low3 reg) mem ⟨w, extBit reg, false, false⟩
    decodeAddressing built.2 hasRex files built.1.bytes = some (files.1.name hasRex (low4 reg),
        .memory mem.encoded.base (mem.encoded.index.map Prod.fst)) := by
  intro built
  have hdecode := decodeMemory_build (low3 reg) mem w (extBit reg)
  obtain ⟨modrm, rest, hbytes, hmod, hreg⟩ := decodeMemory_register hdecode
  have hr : built.2.r = extBit reg :=
    (buildMemoryModRM_rex (low3 reg) mem ⟨w, extBit reg, false, false⟩).2
  change decodeAddressing built.2 hasRex files
    (buildMemoryModRM (low3 reg) mem ⟨w, extBit reg, false, false⟩).1.bytes = _
  rw [hbytes] at hdecode ⊢
  unfold decodeAddressing
  dsimp only
  rw [if_neg hmod, hdecode, hreg, hr]
  simp only [Option.bind_some, if_true]
  rw [extended_low3]

end Parts

/-! ## The table -/

def OperandClass.isMemory : OperandClass → Bool
  | .Mem _ => true
  | _ => false

/-- The file of a slot, by the class of its operand and the operand size. -/
def TargetInst.file (inst : TargetInst) (slot : EncSlotKind) (isByte : Bool) : FieldFile :=
  if byteForm inst.encoding.form then if isByte then .byte else .general
  else if inst.classOf slot = some (.GPR 8) then .byte
  else if (inst.classOf slot).any OperandClass.isVector then .vector
  else .general

/-- The opcodes of a row have the files of its classes. -/
def TargetInst.opcodesMatch (inst : TargetInst) : Bool :=
  let desc := inst.encoding
  let files := (inst.file .Reg false, inst.file .RmReg false)
  decodeOpcode (emitLegacyPrefixes desc.prefixes false) desc.opcode = some (files, []) &&
    decodeOpcode (emitLegacyPrefixes desc.prefixes true) desc.opcode = some (files, []) &&
    (!byteForm desc.form ||
      decodeOpcode (emitLegacyPrefixes desc.prefixes false) (decrementLast desc.opcode) =
        some ((.byte, .byte), [])) &&
    (!desc.hasSseVariant ||
      decodeOpcode (emitLegacyPrefixes desc.ssePrefixes false) desc.sseOpcode =
        some ((.vector, .vector), []))

/-- The r/m operand is a register or memory, and only memory in a row with two variants. -/
def TargetInst.rmMatches (inst : TargetInst) : Bool :=
  ((inst.classOf .RmReg).any (fun c => !c.isMemory) &&
      (findBinding inst.encoding .RmMem).isNone && !inst.encoding.hasSseVariant) ||
    ((findBinding inst.encoding .RmReg).isNone && (inst.classOf .RmMem).any OperandClass.isMemory)

/-- The byte forms are those of general registers. -/
def TargetInst.formMatches (inst : TargetInst) : Bool :=
  (inst.classOf .Reg).any (fun c => !c.isMemory) && (!byteForm inst.encoding.form ||
      (!(inst.classOf .Reg).any OperandClass.isVector &&
        !(inst.classOf .RmReg).any OperandClass.isVector)) &&
    (!inst.encoding.hasSseVariant || byteForm inst.encoding.form)

theorem ModRMInst.opcodesMatch (inst : ModRMInst) : inst.target.opcodesMatch = true := by
  cases inst <;> rfl

theorem ModRMInst.rmMatches (inst : ModRMInst) : inst.target.rmMatches = true := by
  cases inst <;> rfl

theorem ModRMInst.formMatches (inst : ModRMInst) : inst.target.formMatches = true := by
  cases inst <;> rfl

section Rows

variable {inst : TargetInst} {operands : List ResolvedOperand} {regOp rmOp : ResolvedOperand}

def TargetInst.encodedFiles (inst : TargetInst) (regOp : ResolvedOperand)
    (sizeBytes : BitVec 8) : OpcodeFiles :=
  if usesSse inst.encoding regOp then (.vector, .vector)
  else (inst.file .Reg (sizeBytes = 1), inst.file .RmReg (sizeBytes = 1))

theorem TargetInst.decodeOpcode_encoded (h : inst.opcodesMatch = true) (regOp : ResolvedOperand)
    (sizeBytes : BitVec 8) :
    decodeOpcode (encodedPrefixes inst.encoding regOp sizeBytes)
        (encodedOpcode inst.encoding regOp sizeBytes) =
      some (inst.encodedFiles regOp sizeBytes, []) := by
  unfold TargetInst.opcodesMatch at h
  simp only [Bool.and_eq_true, Bool.or_eq_true, Bool.not_eq_true', decide_eq_true_eq] at h
  obtain ⟨⟨⟨hplain, hsize16⟩, hbyte⟩, hsse⟩ := h
  unfold encodedPrefixes encodedOpcode TargetInst.encodedFiles
  cases huse : usesSse inst.encoding regOp with
  | true =>
    have hvariant : inst.encoding.hasSseVariant = true :=
      (Bool.and_eq_true_iff.mp huse).1
    exact hsse.resolve_left (by simp [hvariant])
  | false =>
    simp only [Bool.false_eq_true, if_false, Bool.not_false, Bool.true_and]
    cases hform : byteForm inst.encoding.form with
    | true =>
      have hfile (slot : EncSlotKind) (isByte : Bool) :
          inst.file slot isByte = if isByte then .byte else .general := by
        unfold TargetInst.file
        rw [if_pos hform]
      simp only [hfile] at hplain hsize16 ⊢
      by_cases hone : sizeBytes = 1
      · subst hone
        exact hbyte.resolve_left (by simp [hform])
      · simp only [hone, decide_false, Bool.false_and, Bool.false_eq_true, if_false]
        cases decide (sizeBytes = 2) with
        | true => exact hsize16
        | false => exact hplain
    | false =>
      have hfile (slot : EncSlotKind) (isByte : Bool) :
          inst.file slot isByte = inst.file slot false := by
        unfold TargetInst.file
        rw [hform]
        rfl
      simp only [Bool.and_false, Bool.false_eq_true, if_false]
      rw [hfile .Reg, hfile .RmReg]
      cases decide (sizeBytes = 2) with
      | true => exact hsize16
      | false => exact hplain

/-! ## Operands of a row -/

/-- An operand for each class of the row. -/
def TargetInst.Takes (inst : TargetInst) (operands : List ResolvedOperand) : Prop :=
  Forall₂ OperandClass.Takes inst.operands operands

variable {operandClass : OperandClass} {op : ResolvedOperand} {desc : EncodingDesc}

theorem TargetInst.Takes.resolve (h : inst.Takes operands) {slot : EncSlotKind}
    (hclass : inst.classOf slot = some operandClass) :
    ∃ op, X86.resolve inst.encoding operands slot = some op ∧ operandClass.Takes op := by
  obtain ⟨binding, hbinding, hindex⟩ := Option.bind_eq_some_iff.mp hclass
  obtain ⟨hlength, hall⟩ := forall₂_iff_get.mp h
  obtain ⟨hlt, hget⟩ := List.getElem?_eq_some_iff.mp hindex
  have hlt' : binding.operandIndex.toNat < operands.length := hlength ▸ hlt
  refine ⟨operands[binding.operandIndex.toNat], ?_, ?_⟩
  · unfold X86.resolve
    rw [hbinding, Option.bind_some, getElem?_eq_getElem hlt']
  · have htakes := hall binding.operandIndex.toNat hlt hlt'
    rw [get_eq_getElem, get_eq_getElem, hget] at htakes
    exact htakes

theorem OperandClass.Takes.register (h : operandClass.Takes op)
    (hmem : operandClass.isMemory = false) : op.kind = .Register ∧ op.reg < 16 := by
  cases operandClass with
  | Mem => exact absurd hmem (by simp [OperandClass.isMemory])
  | _ => exact h

theorem OperandClass.Takes.memory (h : operandClass.Takes op)
    (hmem : operandClass.isMemory = true) :
    op.kind = .Memory ∧ IsHardware op.mem.base ∧ IsHardware op.mem.index := by
  cases operandClass with
  | Mem => exact h
  | _ => exact absurd hmem (by simp [OperandClass.isMemory])

theorem resolve_eq_none {slot : EncSlotKind} (h : (findBinding desc slot).isNone = true)
    (operands : List ResolvedOperand) : resolve desc operands slot = none := by
  unfold resolve
  rw [Option.isNone_iff_eq_none.mp h]
  rfl

theorem FieldFile.name_eq_iff {file : FieldFile} (hmmx : file ≠ .mmx) (hasRex : Bool)
    (op : ResolvedOperand) :
    file.name hasRex op.reg = op.register ↔ (file = .vector ↔ op.isFpr = true) ∧
        (file = .byte → op.isShadowed → hasRex = true) := by
  unfold FieldFile.name ResolvedOperand.register ResolvedOperand.isShadowed
  cases file with
  | mmx => exact absurd rfl hmmx
  | general | vector => cases op.isFpr <;> simp
  | byte =>
    have hvector : FieldFile.byte ≠ .vector := fun h => FieldFile.noConfusion h
    dsimp only
    cases op.isFpr with
    | true =>
      rw [if_pos rfl]
      refine iff_of_false (fun h => ?_) fun h => hvector (h.1.mpr rfl)
      split at h
      all_goals exact RegisterName.noConfusion h
    | false =>
      have hfile : FieldFile.byte = .vector ↔ false = true :=
        iff_of_false hvector Bool.false_ne_true
      rw [if_neg Bool.false_ne_true]
      split
      next h =>
        refine iff_of_false (fun heq => RegisterName.noConfusion heq) fun hright => ?_
        rw [h.1] at hright
        exact Bool.false_ne_true (hright.2 rfl ⟨rfl, h.2⟩)
      next h =>
        refine iff_of_true rfl ⟨hfile, fun _ hshadow => ?_⟩
        by_contra hnone
        exact h ⟨Bool.of_not_eq_true hnone, hshadow.2⟩

theorem TargetInst.file_ne_mmx (inst : TargetInst) (slot : EncSlotKind) (isByte : Bool) :
    inst.file slot isByte ≠ .mmx := by
  unfold TargetInst.file
  repeat' split
  all_goals exact fun h => FieldFile.noConfusion h

section Slot

variable {slot : EncSlotKind} {operandClass : OperandClass}

theorem TargetInst.file_vector_iff (hclass : inst.classOf slot = some operandClass)
    (hform : byteForm inst.encoding.form = true → operandClass.isVector = false)
    (isByte : Bool) :
    inst.file slot isByte = .vector ↔ operandClass.isVector = true := by
  unfold TargetInst.file
  rw [hclass]
  split
  next hbyte =>
    refine iff_of_false (fun h => ?_) (by simp [hform hbyte])
    split at h <;> exact FieldFile.noConfusion h
  next =>
    split
    next heq =>
      rw [Option.some.inj heq]
      exact iff_of_false (fun h => FieldFile.noConfusion h) Bool.false_ne_true
    next =>
      rw [Option.any_some]
      split
      next hvector => exact iff_of_true rfl hvector
      next hvector => exact iff_of_false (fun h => FieldFile.noConfusion h) hvector

theorem TargetInst.file_byte_iff (inst : TargetInst) (operands : List ResolvedOperand)
    (slot : EncSlotKind) :
    inst.file slot (resolveSize inst.encoding operands = 1) = .byte ↔
      inst.ReadsByte operands slot := by
  unfold TargetInst.file TargetInst.ReadsByte
  split
  next =>
    by_cases hone : resolveSize inst.encoding operands = 1
    · simp [hone]
    · rw [decide_eq_false hone, if_neg Bool.false_ne_true]
      exact iff_of_false (fun h => FieldFile.noConfusion h) hone
  next =>
    split
    next hbyte => exact iff_of_true rfl hbyte
    next hbyte =>
      refine iff_of_false (fun h => ?_) hbyte
      split at h <;> exact FieldFile.noConfusion h

theorem TargetInst.name_file_iff (hclass : inst.classOf slot = some operandClass)
    (hform : byteForm inst.encoding.form = true → operandClass.isVector = false)
    (hsse : inst.encoding.hasSseVariant = false) (hasRex : Bool) (op : ResolvedOperand) :
    (inst.file slot (resolveSize inst.encoding operands = 1)).name hasRex op.reg = op.register ↔
      inst.FileFits slot op ∧ (inst.ReadsByte operands slot → op.isShadowed → hasRex = true) := by
  rw [FieldFile.name_eq_iff (inst.file_ne_mmx _ _), file_vector_iff hclass hform,
    inst.file_byte_iff operands slot]
  refine and_congr_left fun _ => ?_
  unfold TargetInst.FileFits
  rw [hsse, hclass, Option.map_some, Option.some.injEq, ← Bool.eq_iff_iff]
  simp

end Slot

theorem TargetInst.name_reg_iff (hform : inst.formMatches = true) (hasRex : Bool)
    (regOp : ResolvedOperand) :
    (inst.encodedFiles regOp (resolveSize inst.encoding operands)).1.name hasRex regOp.reg =
        regOp.register ↔
      inst.FileFits .Reg regOp ∧
        (inst.ReadsByte operands .Reg → regOp.isShadowed → hasRex = true) := by
  unfold TargetInst.formMatches at hform
  simp only [Bool.and_eq_true, Bool.or_eq_true, Bool.not_eq_true'] at hform
  obtain ⟨⟨hreg, hvector⟩, hvariant⟩ := hform
  obtain ⟨operandClass, hclass, -⟩ := (Option.any_eq_true _ _).mp hreg
  have hclassForm (hbyte : byteForm inst.encoding.form = true) : operandClass.isVector = false := by
    have hnone := (hvector.resolve_left (by simp [hbyte])).1
    rwa [hclass, Option.any_some] at hnone
  unfold TargetInst.encodedFiles
  cases hsse : inst.encoding.hasSseVariant with
  | false =>
    have huse : usesSse inst.encoding regOp = false := by
      unfold usesSse
      rw [hsse]
      rfl
    rw [huse]
    exact name_file_iff hclass hclassForm hsse hasRex regOp
  | true =>
    have hbyte : byteForm inst.encoding.form = true := hvariant.resolve_left (by simp [hsse])
    have hfits : inst.FileFits .Reg regOp := Or.inl hsse
    have huse : usesSse inst.encoding regOp = regOp.isFpr := by
      unfold usesSse
      rw [hsse]
      rfl
    rw [huse, and_iff_right hfits]
    cases hfpr : regOp.isFpr with
    | true =>
      refine iff_of_true ?_ fun _ hshadow => ?_
      · unfold FieldFile.name ResolvedOperand.register
        rw [hfpr]
        rfl
      · exact absurd hshadow.1 (by simp [hfpr])
    | false =>
      rw [if_neg Bool.false_ne_true, FieldFile.name_eq_iff (inst.file_ne_mmx _ _),
        file_vector_iff hclass hclassForm, inst.file_byte_iff operands .Reg,
        hclassForm hbyte, hfpr]
      simp

/-! ## The REX prefix -/

theorem extBit_iff {number : BitVec 8} (h : number < 16) : extBit number = true ↔ 8 ≤ number := by
  revert number
  decide +kernel

/-- The bits of the prefix that the addressing bytes of a memory operand set. -/
theorem extended_memory_iff (hkind : op.kind = .Memory) (hbase : IsHardware op.mem.base)
    (hindex : IsHardware op.mem.index) (regField : BitVec 8) (w r : Bool) :
    let rex := (buildMemoryModRM regField op.mem ⟨w, r, false, false⟩).2
    (rex.x || rex.b) = true ↔ op.Extended := by
  have hext {number : BitVec 8} (hhardware : IsHardware number) (hsome : number ≠ NoReg) :
      extBit number = true ↔ 8 ≤ number := extBit_iff (hhardware.resolve_left hsome)
  unfold buildMemoryModRM ResolvedOperand.Extended
  rw [if_pos hkind]
  cases hrip : op.mem.ripRel with
  | true => simp
  | false =>
    dsimp only
    rw [if_neg Bool.false_ne_true]
    by_cases hnoIndex : op.mem.index = NoReg
    · by_cases hnoBase : op.mem.base = NoReg
      · rw [if_pos ⟨hnoBase, hnoIndex⟩]
        simp [hnoBase, hnoIndex]
      · rw [if_neg fun h => hnoBase h.1, if_neg fun h => h hnoIndex]
        split <;> simp [hnoBase, hnoIndex, hext hbase hnoBase]
    · rw [if_neg fun h => hnoIndex h.2, if_pos hnoIndex]
      by_cases hnoBase : op.mem.base = NoReg
      · rw [if_pos hnoBase]
        simp [hnoBase, hnoIndex, hext hindex hnoIndex]
      · rw [if_neg hnoBase]
        simp [hnoBase, hnoIndex, hext hindex hnoIndex, hext hbase hnoBase, or_comm]

theorem isNeeded_or_forced_iff (hreg : regOp.kind = .Register) (hregLt : regOp.reg < 16) (hrm : if
      rmIsMemory then rmOp.kind = .Memory ∧ IsHardware rmOp.mem.base ∧ IsHardware rmOp.mem.index
      else rmOp.kind = .Register ∧ rmOp.reg < 16) (desc : EncodingDesc) (sizeBytes : BitVec 8) :
    let built := buildModRM (low3 regOp.reg) rmOp rmIsMemory (startRex desc regOp sizeBytes)
    (built.2.isNeeded || rexForced desc sizeBytes regOp rmOp rmIsMemory) = true ↔
      ((usesSse desc regOp = false ∧ rexWanted desc.rexW sizeBytes = true) ∨
        regOp.Extended ∨ rmOp.Extended) ∨
      rexForced desc sizeBytes regOp rmOp rmIsMemory = true := by
  intro built
  rw [Bool.or_eq_true]
  refine or_congr_left ?_
  have hregExtended : extBit regOp.reg = true ↔ regOp.Extended := by
    unfold ResolvedOperand.Extended
    rw [if_neg (by simp [hreg]), extBit_iff hregLt]
  have hparts : built.2.isNeeded = true ↔
      (built.2.w = true ∨ built.2.r = true) ∨ (built.2.x || built.2.b) = true := by
    unfold Rex.isNeeded
    simp only [Bool.or_eq_true, or_assoc]
  have hw : built.2.w = true ↔
      usesSse desc regOp = false ∧ rexWanted desc.rexW sizeBytes = true := by
    have hkeep : built.2.w = (startRex desc regOp sizeBytes).w := by
      unfold built buildModRM
      split
      · exact (buildMemoryModRM_rex _ _ _).1
      · rfl
    rw [hkeep]
    unfold startRex
    cases usesSse desc regOp <;> simp
  have hr : built.2.r = extBit regOp.reg := by
    unfold built buildModRM
    split
    · exact (buildMemoryModRM_rex _ _ _).2
    · rfl
  have hrmExtended : (built.2.x || built.2.b) = true ↔ rmOp.Extended := by
    cases rmIsMemory with
    | true =>
      obtain ⟨hkind, hbase, hindex⟩ := hrm
      exact extended_memory_iff hkind hbase hindex _ _ _
    | false =>
      obtain ⟨hkind, hlt⟩ := hrm
      unfold ResolvedOperand.Extended
      rw [if_neg (by simp [hkind]), ← extBit_iff hlt]
      exact Iff.rfl
  rw [hparts, hw, hr, hregExtended, hrmExtended, or_assoc]

theorem forcesRex_iff {sizeBytes number : BitVec 8} (hlt : number < 16) (hfour : 4 ≤ number) :
    forcesRex desc sizeBytes number = true ↔ sizeBytes = 1 ∧ desc.byteRex = true := by
  have hlow : 4 ≤ low4 number := by rwa [(low4_eq_iff number).mpr hlt]
  unfold forcesRex
  rw [decide_eq_true_eq]
  exact ⟨fun h => ⟨h.1, h.2.1⟩, fun h => ⟨h.1, h.2, hlow⟩⟩

/-- In front of a shadowed register the prefix that is emitted is the one that is counted on. -/
theorem TargetInst.isNeeded_or_forced_iff_hasRex
    (hreg : X86.resolve inst.encoding operands .Reg = some regOp) (hrmOnly : ∀ op, (X86.resolve
      inst.encoding operands .RmReg = some op ∨ X86.resolve inst.encoding operands .RmMem = some op)
      ↔ op = rmOp) (hregTakes : regOp.kind = .Register ∧ regOp.reg < 16) (hrmTakes : if rmIsMemory
      then rmOp.kind = .Memory ∧ IsHardware rmOp.mem.base ∧ IsHardware rmOp.mem.index else rmOp.kind
      = .Register ∧ rmOp.reg < 16) (hsse : usesSse inst.encoding regOp = false)
    (hshadow : 4 ≤ regOp.reg ∨ (rmIsMemory = false ∧ 4 ≤ rmOp.reg)) :
    let sizeBytes := resolveSize inst.encoding operands
    let built :=
      buildModRM (low3 regOp.reg) rmOp rmIsMemory (startRex inst.encoding regOp sizeBytes)
    (built.2.isNeeded || rexForced inst.encoding sizeBytes regOp rmOp rmIsMemory) = true ↔
      inst.HasRex operands := by
  intro sizeBytes built
  refine (isNeeded_or_forced_iff hregTakes.1 hregTakes.2 hrmTakes _ _).trans ?_
  have hforced : rexForced inst.encoding sizeBytes regOp rmOp rmIsMemory = true ↔
      sizeBytes = 1 ∧ inst.encoding.byteRex = true := by
    unfold rexForced
    rw [Bool.or_eq_true]
    constructor
    · rintro (h | h)
      · unfold forcesRex at h
        rw [decide_eq_true_eq] at h
        exact ⟨h.1, h.2.1⟩
      · have hrm := (Bool.and_eq_true_iff.mp h).2
        unfold forcesRex at hrm
        rw [decide_eq_true_eq] at hrm
        exact ⟨hrm.1, hrm.2.1⟩
    · intro h
      obtain hfour | ⟨hmem, hfour⟩ := hshadow
      · exact Or.inl ((forcesRex_iff hregTakes.2 hfour).mpr h)
      · subst hmem
        exact Or.inr ((forcesRex_iff hrmTakes.2 hfour).mpr h)
  have hextended : (∃ slot op, (slot = .Reg ∨ slot = .RmReg ∨ slot = .RmMem) ∧
      X86.resolve inst.encoding operands slot = some op ∧ op.Extended) ↔
      regOp.Extended ∨ rmOp.Extended := by
    constructor
    · rintro ⟨slot, op, rfl | rfl | rfl, hop, hext⟩
      · rw [hreg] at hop
        rw [← Option.some.inj hop] at hext
        exact Or.inl hext
      · rw [(hrmOnly op).mp (Or.inl hop)] at hext
        exact Or.inr hext
      · rw [(hrmOnly op).mp (Or.inr hop)] at hext
        exact Or.inr hext
    · rintro (hext | hext)
      · exact ⟨.Reg, regOp, Or.inl rfl, hreg, hext⟩
      · obtain hop | hop := (hrmOnly rmOp).mpr rfl
        · exact ⟨.RmReg, rmOp, Or.inr (Or.inl rfl), hop, hext⟩
        · exact ⟨.RmMem, rmOp, Or.inr (Or.inr rfl), hop, hext⟩
  unfold TargetInst.HasRex
  rw [hforced, hextended, hsse, and_iff_right rfl]
  exact or_assoc.trans (or_congr_right or_comm)

theorem registersExact_iff_decode {bytes : List UInt8}
    (hreg : resolve desc operands .Reg = some regOp)
    (hrm : resolveRm desc operands = some (rmOp, rmIsMemory))
    (hbytes : (encodeModRMForm desc operands).map Prod.fst = some bytes) :
    RegistersExact desc operands ↔ decodeRegisters bytes = some (regOp.register, rmOp.rm) := by
  obtain ⟨encoded, hencoded, rfl⟩ := Option.map_eq_some_iff.mp hbytes
  unfold RegistersExact
  rw [hencoded, hreg, hrm]
  simp

/-! ## Exactness -/

section Exact

variable {regClass rmClass : OperandClass}

theorem TargetInst.registersExact_register_iff (hopcodes : inst.opcodesMatch = true)
    (hform : inst.formMatches = true)
    (hreg : X86.resolve inst.encoding operands .Reg = some regOp)
    (hregTakes : regOp.kind = .Register ∧ regOp.reg < 16)
    (hclass : inst.classOf .RmReg = some rmClass)
    (hrm : X86.resolve inst.encoding operands .RmReg = some rmOp)
    (hrmTakes : rmOp.kind = .Register ∧ rmOp.reg < 16)
    (hmem : findBinding inst.encoding .RmMem = none)
    (hsse : inst.encoding.hasSseVariant = false) :
    RegistersExact inst.encoding operands ↔ inst.RegistersFit operands := by
  have hnoMem : X86.resolve inst.encoding operands .RmMem = none :=
    resolve_eq_none (by simp [hmem]) operands
  have hresolveRm : resolveRm inst.encoding operands = some (rmOp, false) := by
    unfold resolveRm
    rw [hrm, hmem]
    rfl
  have huse : usesSse inst.encoding regOp = false := by
    unfold usesSse
    rw [hsse]
    rfl
  have hclassForm (hbyte : byteForm inst.encoding.form = true) : rmClass.isVector = false := by
    unfold TargetInst.formMatches at hform
    simp only [Bool.and_eq_true, Bool.or_eq_true, Bool.not_eq_true'] at hform
    have hnone := (hform.1.2.resolve_left (by simp [hbyte])).2
    rwa [hclass, Option.any_some] at hnone
  have hrmOnly (op : ResolvedOperand) : (X86.resolve inst.encoding operands .RmReg = some op ∨
      X86.resolve inst.encoding operands .RmMem = some op) ↔ op = rmOp := by
    rw [hrm, hnoMem]
    simp [eq_comm]
  have hbytes := encodeModRMForm_bytes hreg hresolveRm
    ⟨hregTakes.1, by unfold isRm; simp [hrmTakes.1]⟩
  dsimp only at hbytes
  rw [registersExact_iff_decode hreg hresolveRm hbytes]
  unfold encodedPrefixes
  rw [decodeRegisters_emit _ _ (decodeOpcode_encoded hopcodes regOp _)]
  generalize hpresent : (Rex.isNeeded _ || _) = hasRex
  have hiff (hshadow : 4 ≤ regOp.reg ∨ (false = false ∧ 4 ≤ rmOp.reg)) :
      hasRex = true ↔ inst.HasRex operands := by
    rw [← hpresent]
    exact isNeeded_or_forced_iff_hasRex hreg hrmOnly hregTakes hrmTakes huse hshadow
  have hdecode := decodeAddressing_register regOp.reg rmOp.reg
    (buildModRM (low3 regOp.reg) rmOp false
      (startRex inst.encoding regOp (resolveSize inst.encoding operands))).2 hasRex
    (inst.encodedFiles regOp (resolveSize inst.encoding operands)) rfl rfl
  change decodeAddressing _ hasRex _ [encodeModRM 3 (low3 regOp.reg) (low3 rmOp.reg)] = _ ↔ _
  rw [hdecode, (low4_eq_iff _).mpr hregTakes.2, (low4_eq_iff _).mpr hrmTakes.2]
  have hrmName : rmOp.rm = .register rmOp.register := by
    unfold ResolvedOperand.rm
    rw [if_neg (by simp [hrmTakes.1])]
  have hfile : (inst.encodedFiles regOp (resolveSize inst.encoding operands)).2 =
      inst.file .RmReg (resolveSize inst.encoding operands = 1) := by
    unfold TargetInst.encodedFiles
    rw [huse]
    rfl
  rw [hrmName, hfile, Option.some.injEq, Prod.mk.injEq, RmName.register.injEq,
    name_reg_iff hform, name_file_iff hclass hclassForm hsse]
  constructor
  · rintro ⟨⟨hregFits, hregByte⟩, hrmFits, hrmByte⟩
    refine ⟨?_, fun op hop => ?_, ?_⟩
    · rintro slot op (rfl | rfl) hop
      · rwa [← Option.some.inj (hreg.symm.trans hop)]
      · rwa [← Option.some.inj (hrm.symm.trans hop)]
    · rw [hnoMem] at hop
      exact absurd hop (by simp)
    · rintro slot op (rfl | rfl) hop hbyte hshadow
      · rw [← Option.some.inj (hreg.symm.trans hop)] at hshadow
        exact (hiff (Or.inl hshadow.2.1)).mp (hregByte hbyte hshadow)
      · rw [← Option.some.inj (hrm.symm.trans hop)] at hshadow
        exact (hiff (Or.inr ⟨rfl, hshadow.2.1⟩)).mp (hrmByte hbyte hshadow)
  · intro hfit
    refine ⟨⟨hfit.files _ _ (Or.inl rfl) hreg, fun hbyte hshadow => ?_⟩,
      hfit.files _ _ (Or.inr rfl) hrm, fun hbyte hshadow => ?_⟩
    · exact (hiff (Or.inl hshadow.2.1)).mpr (hfit.bytes _ _ (Or.inl rfl) hreg hbyte hshadow)
    · exact (hiff (Or.inr ⟨rfl, hshadow.2.1⟩)).mpr (hfit.bytes _ _ (Or.inr rfl) hrm hbyte hshadow)

/-- The index register of the bytes is the operand's unless it is the fourth one. -/
theorem encoded_memory_iff {mem : EncMemory} (hbase : IsHardware mem.base)
    (hindex : IsHardware mem.index) :
    mem.encoded.base = mem.address.base ∧
        mem.encoded.index.map Prod.fst = mem.address.index.map Prod.fst ↔
      mem.index = NoReg ∨ (mem.ripRel = false ∧ mem.index ≠ 4) := by
  rw [and_iff_right (base_encoded hbase)]
  unfold EncMemory.encoded EncMemory.address
  dsimp only
  by_cases hnone : mem.index = NoReg
  · simp [hnone]
  · have hlow : low4 mem.index = mem.index := (low4_eq_iff _).mpr (hindex.resolve_left hnone)
    rw [hlow]
    cases mem.ripRel with
    | true => simp [hnone]
    | false => by_cases hfour : mem.index = 4 <;> simp [hnone, hfour]

theorem TargetInst.registersExact_memory_iff (hopcodes : inst.opcodesMatch = true)
    (hform : inst.formMatches = true)
    (hreg : X86.resolve inst.encoding operands .Reg = some regOp)
    (hregTakes : regOp.kind = .Register ∧ regOp.reg < 16)
    (hnoReg : findBinding inst.encoding .RmReg = none)
    (hrm : X86.resolve inst.encoding operands .RmMem = some rmOp)
    (hrmTakes : rmOp.kind = .Memory ∧ IsHardware rmOp.mem.base ∧ IsHardware rmOp.mem.index) :
    RegistersExact inst.encoding operands ↔ inst.RegistersFit operands := by
  have hnone : X86.resolve inst.encoding operands .RmReg = none :=
    resolve_eq_none (by simp [hnoReg]) operands
  have hresolveRm : resolveRm inst.encoding operands = some (rmOp, true) := by
    unfold resolveRm
    rw [hnone, hrm]
    rfl
  have hrmOnly (op : ResolvedOperand) : (X86.resolve inst.encoding operands .RmReg = some op ∨
      X86.resolve inst.encoding operands .RmMem = some op) ↔ op = rmOp := by
    rw [hrm, hnone]
    simp [eq_comm]
  have hbytes := encodeModRMForm_bytes hreg hresolveRm
    ⟨hregTakes.1, by unfold isRm; simp [hrmTakes.1]⟩
  dsimp only at hbytes
  rw [registersExact_iff_decode hreg hresolveRm hbytes]
  unfold encodedPrefixes
  rw [decodeRegisters_emit _ _ (decodeOpcode_encoded hopcodes regOp _)]
  generalize hpresent : (Rex.isNeeded _ || _) = hasRex
  have hiff (hshadow : regOp.isShadowed) : hasRex = true ↔ inst.HasRex operands := by
    have huse : usesSse inst.encoding regOp = false := by
      unfold usesSse
      rw [hshadow.1, Bool.and_false]
    rw [← hpresent]
    exact isNeeded_or_forced_iff_hasRex hreg hrmOnly hregTakes hrmTakes huse (Or.inl hshadow.2.1)
  have hdecode := decodeAddressing_memory hasRex
    (inst.encodedFiles regOp (resolveSize inst.encoding operands)) regOp.reg rmOp.mem
    (startRex inst.encoding regOp (resolveSize inst.encoding operands)).w
  dsimp only at hdecode
  have hrmName : rmOp.rm = .memory rmOp.mem.address.base (rmOp.mem.address.index.map Prod.fst) := by
    unfold ResolvedOperand.rm
    rw [if_pos hrmTakes.1]
  change decodeAddressing (buildMemoryModRM (low3 regOp.reg) rmOp.mem
      ⟨(startRex inst.encoding regOp (resolveSize inst.encoding operands)).w,
        extBit regOp.reg, false, false⟩).2 hasRex _
    (buildMemoryModRM (low3 regOp.reg) rmOp.mem
      ⟨(startRex inst.encoding regOp (resolveSize inst.encoding operands)).w,
        extBit regOp.reg, false, false⟩).1.bytes = _ ↔ _
  rw [hdecode, (low4_eq_iff _).mpr hregTakes.2, hrmName, Option.some.injEq, Prod.mk.injEq,
    RmName.memory.injEq, encoded_memory_iff hrmTakes.2.1 hrmTakes.2.2, name_reg_iff hform]
  constructor
  · rintro ⟨⟨hfits, hbyte⟩, hindex⟩
    refine ⟨?_, fun op hop => ?_, ?_⟩
    · rintro slot op (rfl | rfl) hop
      · rwa [← Option.some.inj (hreg.symm.trans hop)]
      · exact absurd (hnone.symm.trans hop) (by simp)
    · rwa [← Option.some.inj (hrm.symm.trans hop)]
    · rintro slot op (rfl | rfl) hop hreads hshadow
      · rw [← Option.some.inj (hreg.symm.trans hop)] at hshadow
        exact (hiff hshadow).mp (hbyte hreads hshadow)
      · exact absurd (hnone.symm.trans hop) (by simp)
  · intro hfit
    refine ⟨⟨hfit.files _ _ (Or.inl rfl) hreg, fun hreads hshadow => ?_⟩, hfit.index _ hrm⟩
    exact (hiff hshadow).mpr (hfit.bytes _ _ (Or.inl rfl) hreg hreads hshadow)

end Exact

end Rows

/-- The instructions name the registers that they can name, and no others. -/
theorem ModRMInst.registersExact_iff (inst : ModRMInst) {operands : List ResolvedOperand}
    (h : inst.target.Takes operands) :
    RegistersExact inst.target.encoding operands ↔ inst.target.RegistersFit operands := by
  have hopcodes := inst.opcodesMatch
  have hform := inst.formMatches
  have hrm := inst.rmMatches
  have hregClass := hform
  unfold TargetInst.formMatches at hregClass
  unfold TargetInst.rmMatches at hrm
  simp only [Bool.and_eq_true, Bool.or_eq_true, Bool.not_eq_true'] at hregClass hrm
  obtain ⟨regClass, hreg, hregMem⟩ := (Option.any_eq_true _ _).mp hregClass.1.1
  obtain ⟨regOp, hregOp, hregTakes⟩ := h.resolve hreg
  have hregister := hregTakes.register (by simpa using hregMem)
  obtain ⟨⟨hrmClass, hmem⟩, hsse⟩ | ⟨hnone, hrmClass⟩ := hrm
  · obtain ⟨rmClass, hclass, hrmMem⟩ := (Option.any_eq_true _ _).mp hrmClass
    obtain ⟨rmOp, hrmOp, hrmTakes⟩ := h.resolve hclass
    exact TargetInst.registersExact_register_iff hopcodes hform hregOp hregister hclass hrmOp
      (hrmTakes.register (by simpa using hrmMem)) (Option.isNone_iff_eq_none.mp hmem) hsse
  · obtain ⟨rmClass, hclass, hrmMem⟩ := (Option.any_eq_true _ _).mp hrmClass
    obtain ⟨rmOp, hrmOp, hrmTakes⟩ := h.resolve hclass
    exact TargetInst.registersExact_memory_iff hopcodes hform hregOp hregister
      (Option.isNone_iff_eq_none.mp hnone) hrmOp (hrmTakes.memory hrmMem)

def generalOperand (number sizeBytes : BitVec 8) : ResolvedOperand :=
  ⟨.Register, number, false, sizeBytes, 0, ⟨NoReg, NoReg, 1, 0, false, false⟩, false⟩

/-- The move of R14B into EAX has a prefix. -/
theorem movzx_extended_registersExact : RegistersExact ModRMInst.MOVZX32_8.target.encoding
        [generalOperand 0 4, generalOperand 14 1] ↔
      ModRMInst.MOVZX32_8.target.RegistersFit [generalOperand 0 4, generalOperand 14 1] :=
  ModRMInst.MOVZX32_8.registersExact_iff (.cons ⟨rfl, by decide⟩ (.cons ⟨rfl, by decide⟩ .nil))

/-- The move of SIL into EAX reads DH. -/
theorem movzx_reads_secondByte :
    ModRMInst.MOVZX32_8.target.Takes [generalOperand 0 4, generalOperand 6 1] ∧
      (∃ encoded, encodeModRMForm ModRMInst.MOVZX32_8.target.encoding
          [generalOperand 0 4, generalOperand 6 1] = some encoded ∧
        decodeRegisters encoded.1 = some (.general 0, .register (.secondByte 2))) ∧
      ¬RegistersExact ModRMInst.MOVZX32_8.target.encoding
        [generalOperand 0 4, generalOperand 6 1] := by
  have hencode : encodeModRMForm ModRMInst.MOVZX32_8.target.encoding
      [generalOperand 0 4, generalOperand 6 1] = some ([0x0F, 0xB6, 0xC6], .empty) := by
    decide +kernel
  have hdecode : decodeRegisters [0x0F, 0xB6, 0xC6] =
      some (.general 0, .register (.secondByte 2)) := by decide +kernel
  refine ⟨.cons ⟨rfl, by decide⟩ (.cons ⟨rfl, by decide⟩ .nil), ⟨_, hencode, hdecode⟩, ?_⟩
  rintro ⟨encoded, regOp, rmOp, hencoded, -, hrm, hexact⟩
  have hrmOp : (resolveRm ModRMInst.MOVZX32_8.target.encoding
      [generalOperand 0 4, generalOperand 6 1]).map Prod.fst = some (generalOperand 6 1) := rfl
  rw [hencode] at hencoded
  rw [← Option.some.inj hencoded, hdecode, ← Option.some.inj (hrmOp.symm.trans hrm)] at hexact
  exact absurd (Prod.mk.inj (Option.some.inj hexact)).2 (by decide)

end EzPacker.X86
