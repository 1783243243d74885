import Mathlib.Data.BitVec

/-!
# Socket filters of `net/core/filter.c`

The instructions of a filter, the checker `sk_chk_filter` and the interpreter `sk_run_filter`, each
with its own case split. What the interpreter must never do (fetch outside of the filter, use a
scratch word that does not exist, divide by a zero constant, meet an unknown instruction) is an
outcome of its own.
-/

namespace AndroidKernel.Filter

/-- The source of the second operand: the constant of the instruction or the index register. -/
inductive Src where
  | k
  | x
  deriving DecidableEq, Repr

inductive AluOp where
  | add | sub | mul | div | and | or | lsh | rsh
  deriving DecidableEq, Repr

inductive JmpOp where
  | jgt | jge | jeq | jset
  deriving DecidableEq, Repr

/-- The size of a packet load. -/
inductive Size where
  | w | h | b
  deriving DecidableEq, Repr

/-- The instructions that the two switches of `filter.c` name. -/
inductive Opcode where
  | alu (op : AluOp) (src : Src)
  | neg
  | ja
  | jmp (op : JmpOp) (src : Src)
  | ldAbs (size : Size)
  | ldInd (size : Size)
  | ldLen
  | ldxLen
  | ldxMsh
  | ldImm
  | ldxImm
  | ldMem
  | ldxMem
  | tax
  | txa
  | retK
  | retA
  | st
  | stx
  deriving DecidableEq, Repr

/-- `BPF_K` and `BPF_X` -/
def Src.code : Src → BitVec 16
  | .k => 0x00
  | .x => 0x08

/-- `BPF_ADD` and so on. -/
def AluOp.code : AluOp → BitVec 16
  | .add => 0x00
  | .sub => 0x10
  | .mul => 0x20
  | .div => 0x30
  | .or => 0x40
  | .and => 0x50
  | .lsh => 0x60
  | .rsh => 0x70

/-- `BPF_JEQ` and so on. -/
def JmpOp.code : JmpOp → BitVec 16
  | .jeq => 0x10
  | .jgt => 0x20
  | .jge => 0x30
  | .jset => 0x40

/-- `BPF_W`, `BPF_H` and `BPF_B` -/
def Size.code : Size → BitVec 16
  | .w => 0x00
  | .h => 0x08
  | .b => 0x10

/-- The number of bytes of a packet load. -/
def Size.bytes : Size → ℕ
  | .w => 4
  | .h => 2
  | .b => 1

/-- The value of the field `code`: the class in the three low bits, then what the class adds. -/
def Opcode.code : Opcode → BitVec 16
  | .alu op src => 0x04 ||| op.code ||| src.code
  | .neg => 0x04 ||| 0x80
  | .ja => 0x05 ||| 0x00
  | .jmp op src => 0x05 ||| op.code ||| src.code
  | .ldAbs size => 0x00 ||| size.code ||| 0x20
  | .ldInd size => 0x00 ||| size.code ||| 0x40
  | .ldLen => 0x00 ||| 0x00 ||| 0x80
  | .ldxLen => 0x01 ||| 0x00 ||| 0x80
  | .ldxMsh => 0x01 ||| 0x10 ||| 0xa0
  | .ldImm => 0x00 ||| 0x00
  | .ldxImm => 0x01 ||| 0x00
  | .ldMem => 0x00 ||| 0x60
  | .ldxMem => 0x01 ||| 0x60
  | .tax => 0x07 ||| 0x00
  | .txa => 0x07 ||| 0x80
  | .retK => 0x06 ||| 0x00
  | .retA => 0x06 ||| 0x10
  | .st => 0x02
  | .stx => 0x03

/-- All instructions. -/
def Opcode.all : List Opcode :=
  [.neg, .ja, .ldLen, .ldxLen, .ldxMsh, .ldImm, .ldxImm, .ldMem, .ldxMem, .tax, .txa, .retK, .retA,
    .st, .stx] ++ [Size.w, .h, .b].flatMap (fun size => [.ldAbs size, .ldInd size]) ++
  [AluOp.add, .sub, .mul, .div, .and, .or, .lsh, .rsh].flatMap
    (fun op => [.alu op .k, .alu op .x]) ++
  [JmpOp.jgt, .jge, .jeq, .jset].flatMap (fun op => [.jmp op .k, .jmp op .x])

/-- The instruction with a given code. -/
def Opcode.decode (code : BitVec 16) : Option Opcode := Opcode.all.find? (·.code = code)

/-- `BPF_CLASS(code) == BPF_RET` -/
def isRetClass (code : BitVec 16) : Bool := code &&& 0x07 = 0x06

/-- `BPF_MAXINSNS` -/
def bpfMaxinsns : ℕ := 4096

/-- `BPF_MEMWORDS` -/
def bpfMemwords : ℕ := 16

/-- `-EINVAL` -/
def einval : ℤ := -22

/-- `struct sock_filter` -/
structure SockFilter where
  code : BitVec 16
  jt : BitVec 8
  jf : BitVec 8
  k : BitVec 32
  deriving DecidableEq, Repr

/-- The switch of `sk_chk_filter` for the instruction at `pc`. -/
def chkInsn (flen pc : ℕ) (ftest : SockFilter) : Bool :=
  match Opcode.decode ftest.code with
  | none => false
  | some op =>
    match op with
    | .alu .div .k => ftest.k ≠ 0
    | .alu _ _ | .neg | .ldAbs _ | .ldInd _ | .ldLen | .ldxLen | .ldxMsh | .ldImm | .ldxImm
    | .tax | .txa | .retK | .retA => true
    | .ldMem | .ldxMem | .st | .stx => ftest.k.toNat < bpfMemwords
    | .ja => ftest.k.toNat < flen - pc - 1
    | .jmp _ _ => pc + ftest.jt.toNat + 1 < flen ∧ pc + ftest.jf.toNat + 1 < flen

/-- The loop of `sk_chk_filter` over the instructions from `pc` on. -/
def chkFrom (flen : ℕ) : ℕ → List SockFilter → Bool
  | _, [] => true
  | pc, ftest :: rest => chkInsn flen pc ftest && chkFrom flen (pc + 1) rest

/-- `sk_chk_filter` -/
def skChkFilter (filter : List SockFilter) : ℤ :=
  if filter.length = 0 ∨ bpfMaxinsns < filter.length then einval
  else if chkFrom filter.length 0 filter then
    match filter.getLast? with
    | some last => if isRetClass last.code then 0 else einval
    | none => einval
  else einval

/-- What the interpreter reads of a `struct net_device`. -/
structure NetDevice where
  ifindex : BitVec 32
  type : BitVec 16
  deriving Repr

/-- What the interpreter reads of a `struct sk_buff`. Positions in memory are relative to
`skb->data`. -/
structure SkBuff where
  len : BitVec 32
  /-- The bytes of the packet, in the linear part or in fragments. -/
  packet : ℕ → BitVec 8
  /-- The memory around `skb->data`. -/
  memory : ℤ → BitVec 8
  head : ℤ
  tail : ℤ
  networkHeader : ℤ
  macHeader : ℤ
  nonlinear : Bool
  /-- `ntohs(skb->protocol)` -/
  protocol : BitVec 16
  pktType : BitVec 3
  dev : Option NetDevice
  mark : BitVec 32
  queueMapping : BitVec 16

/-- `SKF_AD_OFF` -/
def skfAdOff : ℤ := -0x1000

/-- `SKF_NET_OFF` -/
def skfNetOff : ℤ := -0x100000

/-- `SKF_LL_OFF` -/
def skfLlOff : ℤ := -0x200000

namespace SkBuff

/-- `__load_pointer`, with the bytes at the pointer. Only its first byte is checked against the
tail. -/
def loadPointerNegative (skb : SkBuff) (k : ℤ) : Option (ℕ → BitVec 8) :=
  let ptr : Option ℤ :=
    if skfNetOff ≤ k then some (skb.networkHeader + k - skfNetOff)
    else if skfLlOff ≤ k then some (skb.macHeader + k - skfLlOff)
    else none
  match ptr with
  | none => none
  | some ptr => if skb.head ≤ ptr ∧ ptr < skb.tail then some fun i => skb.memory (ptr + i) else none

/-- `load_pointer`, with the bytes at the pointer. -/
def loadPointer (skb : SkBuff) (k : ℤ) (size : ℕ) : Option (ℕ → BitVec 8) :=
  if 0 ≤ k then
    -- skb_header_pointer, by way of skb_copy_bits if the bytes are not in the linear part
    if k ≤ skb.len.toInt - size then some fun i => skb.packet (k.toNat + i) else none
  else if skfAdOff ≤ k then none
  else skb.loadPointerNegative k

/-- The fields of the `struct nlattr` at a position, in the byte order of the machine. -/
def nlaLen (skb : SkBuff) (pos : ℤ) : ℕ :=
  (skb.memory pos).toNat + 256 * (skb.memory (pos + 1)).toNat

/-- `nla_type` -/
def nlaType (skb : SkBuff) (pos : ℤ) : ℕ :=
  ((skb.memory (pos + 2)).toNat + 256 * (skb.memory (pos + 3)).toNat) % 2 ^ 14

/-- `NLA_ALIGN` -/
def nlaAlign (len : ℕ) : ℕ := (len + 3) / 4 * 4

/-- The loop of `nla_find`. Every round takes at least four of the remaining bytes. -/
def nlaFind (skb : SkBuff) (attrtype : ℤ) : ℕ → ℤ → ℤ → Option ℤ
  | 0, _, _ => none
  | fuel + 1, pos, rem =>
    if 4 ≤ rem ∧ 4 ≤ skb.nlaLen pos ∧ (skb.nlaLen pos : ℤ) ≤ rem then
      if (skb.nlaType pos : ℤ) = attrtype then some pos
      else
        skb.nlaFind attrtype fuel (pos + nlaAlign (skb.nlaLen pos))
          (rem - nlaAlign (skb.nlaLen pos))
    else none

end SkBuff

/-- How a run of a filter ends. -/
inductive Outcome where
  /-- A `BPF_RET` instruction. -/
  | returned (value : BitVec 32)
  /-- `return 0` for a load that fails or a division by a zero index register. -/
  | dropped
  /-- `return 0` behind the loop. -/
  | fellOff
  /-- The default case, with `WARN_ON(1)`. -/
  | warned
  /-- The instruction is fetched from before the filter. -/
  | wildFetch
  /-- A scratch word outside of `mem`. -/
  | wildMem
  /-- A division by a zero constant. -/
  | divByZero
  deriving DecidableEq, Repr

/-- The registers and the scratch memory, which starts with what is on the stack. -/
structure Vm where
  pc : BitVec 32
  a : BitVec 32
  x : BitVec 32
  mem : Fin 16 → BitVec 32

/-- The second operand. -/
def Vm.operand (vm : Vm) (fentry : SockFilter) : Src → BitVec 32
  | .k => fentry.k
  | .x => vm.x

/-- The value of an arithmetic instruction but for the checks of a division. -/
def AluOp.eval (op : AluOp) (a v : BitVec 32) : BitVec 32 :=
  match op with
  | .add => a + v
  | .sub => a - v
  | .mul => a * v
  | .div => a / v
  | .and => a &&& v
  | .or => a ||| v
  | .lsh => a <<< v
  | .rsh => a >>> v

/-- The condition of a jump. -/
def JmpOp.eval (op : JmpOp) (a v : BitVec 32) : Bool :=
  match op with
  | .jgt => v < a
  | .jge => v ≤ a
  | .jeq => a = v
  | .jset => a &&& v ≠ 0

/-- The bytes of a packet load, most significant first. -/
def Size.value (ptr : ℕ → BitVec 8) : Size → BitVec 32
  | .w => ptr 0 ++ ptr 1 ++ ptr 2 ++ ptr 3
  | .h => (ptr 0 ++ ptr 1).setWidth 32
  | .b => (ptr 0).setWidth 32

/-- The second switch of `sk_run_filter`, for the ancillary data at `k`. -/
def ancillary (skb : SkBuff) (vm : Vm) (k : ℤ) : Except Outcome Vm :=
  let device (value : NetDevice → BitVec 32) : Except Outcome Vm :=
    match skb.dev with
    | none => .error .dropped
    | some dev => .ok { vm with a := value dev }
  let found (nla : Option ℤ) : Except Outcome Vm :=
    .ok { vm with a := BitVec.ofInt 32 (nla.getD 0) }
  match k - skfAdOff with
  | 0 => .ok { vm with a := skb.protocol.setWidth 32 }
  | 4 => .ok { vm with a := skb.pktType.setWidth 32 }
  | 8 => device NetDevice.ifindex
  | 12 =>
    if skb.nonlinear ∨ skb.len - 4 < vm.a then .error .dropped
    else
      let len := (skb.len - vm.a).toInt
      found (skb.nlaFind vm.x.toInt len.toNat vm.a.toNat len)
  | 16 =>
    if skb.nonlinear ∨ skb.len - 4 < vm.a ∨
        vm.a - skb.len < BitVec.ofNat 32 (skb.nlaLen vm.a.toNat) then .error .dropped
    else
      let len : ℤ := skb.nlaLen vm.a.toNat - 4
      found (skb.nlaFind vm.x.toInt len.toNat (vm.a.toNat + 4) len)
  | 20 => .ok { vm with a := skb.mark }
  | 24 => .ok { vm with a := skb.queueMapping.setWidth 32 }
  | 28 => device fun dev => dev.type.setWidth 32
  | _ => .error .dropped

/-- `load_w`, `load_h` and `load_b`: a packet load, or else ancillary data. -/
def load (skb : SkBuff) (vm : Vm) (k : ℤ) (size : Size) : Except Outcome Vm :=
  match skb.loadPointer k size.bytes with
  | some ptr => .ok { vm with a := size.value ptr }
  | none => ancillary skb vm k

/-- A use of the scratch word `k`. -/
def scratch (k : BitVec 32) (use : Fin 16 → Vm) : Except Outcome Vm :=
  if h : k.toNat < 16 then .ok (use ⟨k.toNat, h⟩) else .error .wildMem

/-- The first switch of `sk_run_filter`. -/
def execInsn (skb : SkBuff) (vm : Vm) (fentry : SockFilter) : Except Outcome Vm :=
  match Opcode.decode fentry.code with
  | none => .error .warned
  | some op =>
    match op with
    | .alu .div .x => if vm.x = 0 then .error .dropped else .ok { vm with a := vm.a / vm.x }
    | .alu .div .k =>
      if fentry.k = 0 then .error .divByZero else .ok { vm with a := vm.a / fentry.k }
    | .alu op src => .ok { vm with a := op.eval vm.a (vm.operand fentry src) }
    | .neg => .ok { vm with a := -vm.a }
    | .ja => .ok { vm with pc := vm.pc + fentry.k }
    | .jmp op src =>
      let offset := if op.eval vm.a (vm.operand fentry src) then fentry.jt else fentry.jf
      .ok { vm with pc := vm.pc + offset.setWidth 32 }
    | .ldAbs size => load skb vm fentry.k.toInt size
    | .ldLen => .ok { vm with a := skb.len }
    | .ldxLen => .ok { vm with x := skb.len }
    | .ldInd size => load skb vm (vm.x + fentry.k).toInt size
    | .ldxMsh =>
      match skb.loadPointer fentry.k.toInt 1 with
      | some ptr => .ok { vm with x := ((ptr 0 &&& 0xf).setWidth 32) <<< 2 }
      | none => .error .dropped
    | .ldImm => .ok { vm with a := fentry.k }
    | .ldxImm => .ok { vm with x := fentry.k }
    | .ldMem => scratch fentry.k fun i => { vm with a := vm.mem i }
    | .ldxMem => scratch fentry.k fun i => { vm with x := vm.mem i }
    | .tax => .ok { vm with x := vm.a }
    | .txa => .ok { vm with a := vm.x }
    | .retK => .error (.returned fentry.k)
    | .retA => .error (.returned vm.a)
    | .st => scratch fentry.k fun i => { vm with mem := Function.update vm.mem i vm.a }
    | .stx => scratch fentry.k fun i => { vm with mem := Function.update vm.mem i vm.x }

/-- One round of the loop of `sk_run_filter`. -/
def step (filter : List SockFilter) (skb : SkBuff) (vm : Vm) : Except Outcome Vm :=
  if vm.pc.toInt < filter.length then
    if vm.pc.toInt < 0 then .error .wildFetch
    else
      match filter[vm.pc.toInt.toNat]? with
      | none => .error .wildFetch
      | some fentry => do
        let vm ← execInsn skb vm fentry
        .ok { vm with pc := vm.pc + 1 }
  else .error .fellOff

/-- The registers at the start of `sk_run_filter`. -/
def Vm.start (mem : Fin 16 → BitVec 32) : Vm := ⟨0, 0, 0, mem⟩

/-- At most `fuel` rounds of the loop. -/
def runFrom (filter : List SockFilter) (skb : SkBuff) : ℕ → Vm → Option Outcome
  | 0, _ => none
  | fuel + 1, vm =>
    match step filter skb vm with
    | .error outcome => some outcome
    | .ok vm => runFrom filter skb fuel vm

/-- `sk_run_filter`, with a bound on the number of rounds and the contents of the stack. -/
def skRunFilter (filter : List SockFilter) (skb : SkBuff) (mem : Fin 16 → BitVec 32) (fuel : ℕ) :
    Option Outcome :=
  runFrom filter skb fuel (.start mem)

end AndroidKernel.Filter
