import Generalplate.Usmart.Fname
import Generalplate.Usmart.Fparam

/-! # Recognising and executing a line

`usmart_scan` gives a line to `usmart_cmd_rec`, which looks its name up in the
table of prototypes and reads its arguments; a recognised call is executed by
`usmart_exe`, any other line is tried as a system command. Names are written to
buffers of `MAX_FNAME_LEN` bytes, and a write behind one is a fault. What the
functions print is left out, and with it the run time they measure. -/
namespace Generalplate.Usmart
open Lib.ByteMem

/-- `struct _m_usmart_nametab`: the address of a function and its prototype. -/
structure Nametab where
  func : Nat
  name : List UInt8

/-- `SP_TYPE_DEC` and `SP_TYPE_HEX`. -/
def spTypeDec : Nat := 0
def spTypeHex : Nat := 1

/-- So many bytes are written to a name buffer. -/
def nameBuf (bytes : Nat) : Except Fault Unit :=
  if bytes ≤ maxFnameLen then .ok () else .error .nameOverflow

/-- `usmart_get_fname` with a name buffer, which gets the name and its NUL. -/
def getFname (str : List UInt8) : Except Fault FnameRes := do
  let r := usmartGetFname str
  nameBuf (r.fname.length + 1)
  return r

/-- The loop of `usmart_cmd_rec` from entry `i` on: an error code, or the first
entry with the name. -/
def cmdSearch (rfname : List UInt8) (rpnum : Nat) :
    List Nametab → Nat → Except Fault (Nat ⊕ Nat)
  | [], _ => .ok (.inl usmartNofuncfind)
  | e :: funs, i => do
    let s ← getFname (cstr e.name)
    if s.res ≠ usmartOk then return .inl s.res
    else if usmartStrcmp (cstr s.fname) (cstr rfname) = 0 then
      if s.pnum > rpnum then return .inl usmartParmerr else return .inr i
    else cmdSearch rfname rpnum funs (i + 1)

def usmartCmdRec (funs : List Nametab) (str : List UInt8) (dev : UsmartDev) :
    Except Fault (Nat × UsmartDev) := do
  let r ← getFname str
  if r.res ≠ usmartOk then return (r.res, dev)
  else
    match ← cmdSearch r.fname r.pnum funs 0 with
    | .inl sta => return (sta, dev)
    | .inr i => do
      let p ← usmartGetFparam str { dev with id := i }
      match p.parn with
      | none => return (p.sta, p.dev)
      | some parn => return (usmartOk, { p.dev with pnum := parn })

/-- A call of a function; an argument no statement has set is `none`. -/
structure Call where
  func : Nat
  args : List (Option UInt32)
deriving DecidableEq, Repr

/-- What `usmart_exe` puts in `temp[i]`: the address of a string, or a number. -/
def usmartArg (parmAddr : Nat) (dev : UsmartDev) (i : Nat) : UInt32 :=
  let pos := usmartGetParmpos dev.plentbl i
  if dev.parmtype &&& (1#16 <<< i) ≠ 0#16 then UInt32.ofNat (parmAddr + pos)
  else UInt32.ofNat (ofLe (get dev.parm pos 4))

/-- The call `usmart_exe` makes; `parmAddr` is the address of `usmart_dev.parm`.
`temp` is filled as far as the prototype has parameters, and the switch takes as
many arguments as were read. -/
def usmartExe (funs : List Nametab) (parmAddr : Nat) (dev : UsmartDev) :
    Except Fault (Option Call) :=
  match funs[dev.id]? with
  | none => .ok none
  | some e => do
    let r ← getFname (cstr e.name)
    if r.pnum > maxParm then .error .tempOverflow
    else
      let temp i := if i < r.pnum then some (usmartArg parmAddr dev i) else none
      if dev.pnum ≤ maxParm then return some ⟨e.func, (List.range dev.pnum).map temp⟩
      else return none

def sysCmdTab : List (List UInt8) :=
  [text "?", text "help", text "list", text "id", text "hex", text "dec", text "runtime"]

/-- The argument of a system command, read into the name buffer: the code of
`usmart_str2num` and the number, none when it is not a number. -/
def sysArg (str : List UInt8) : Except Fault (Option (Nat × UInt32)) := do
  let a := usmartGetAparm str
  nameBuf (a.1.length + if a.2.isSome then 1 else 0)
  match a.2 with
  | none => .error .pastEnd
  | some (_, .num) => return some (usmartStr2num (cstr a.1))
  | some _ => return none

/-- `hex` and `dec`: convert the number, or set how parameters are shown. -/
def sysShow (type : Nat) (str : List UInt8) (dev : UsmartDev) : Except Fault (Nat × UsmartDev) := do
  match ← sysArg str with
  | some (0, _) => return (usmartOk, dev)
  | some (4, _) => return (usmartOk, { dev with sptype := type })
  | _ => return (usmartParmerr, dev)

/-- The switch of `usmart_sys_cmd_exe`, on the index of the command and the text
behind it. -/
def sysSwitch (funs : List Nametab) (i : Nat) (str : List UInt8) (dev : UsmartDev) :
    Except Fault (Nat × UsmartDev) :=
  match i with
  | 0 | 1 | 2 => return (usmartOk, dev)
  | 3 => do
    funs.forM fun e => do
      let _ ← getFname (cstr e.name)
    return (usmartOk, dev)
  | 4 => sysShow spTypeHex str dev
  | 5 => sysShow spTypeDec str dev
  | 6 => do
    match ← sysArg str with
    | some (0, res) => return (usmartOk, { dev with runtimeflag := res.toNat % 2 ^ 8 })
    | _ => return (usmartParmerr, dev)
  | _ => return (usmartFuncerr, dev)

def usmartSysCmdExe (funs : List Nametab) (str : List UInt8) (dev : UsmartDev) :
    Except Fault (Nat × UsmartDev) := do
  let c := usmartGetCmdname maxFnameLen str []
  nameBuf (c.2.1.length + if c.1 = 0 then 1 else 0)
  if c.1 ≠ 0 then return (usmartFuncerr, dev)
  else
    let i := sysCmdTab.findIdx fun name => usmartStrcmp (cstr c.2.1) (cstr name) = 0
    sysSwitch funs i (str.drop c.2.2) dev

/-- What `usmart_scan` does with a received line: the call it makes and the
status it reports. -/
def usmartScanLine (funs : List Nametab) (parmAddr : Nat) (str : List UInt8) (dev : UsmartDev) :
    Except Fault (Option Call × Nat × UsmartDev) := do
  let (sta, dev) ← usmartCmdRec funs str dev
  if sta = usmartOk then
    let call ← usmartExe funs parmAddr dev
    return (call, sta, dev)
  else
    let (len, dev) ← usmartSysCmdExe funs str dev
    return (none, if len ≠ usmartFuncerr then len else sta, dev)

/-- `usmart_nametab`, with the functions at the addresses of the linked image. -/
def usmartNametab : List Nametab :=
  [⟨0x0800b833, text "u32 read_addr(u32 addr)"⟩,
    ⟨0x0800b839, text "void write_addr(u32 addr,u32 val)"⟩,
    ⟨0x0800aad5, text "void delay_ms(u16 nms)"⟩,
    ⟨0x0800aa7f, text "void delay_us(u32 nus)"⟩,
    ⟨0x080082d9, text "uint16_t ETH_ReadPHYRegister(uint16_t PHYAddress, uint16_t PHYReg)"⟩,
    ⟨0x08008279, text "uint32_t ETH_WritePHYRegister(uint16_t PHYAddress, uint16_t PHYReg," ++
      text " uint16_t PHYValue)"⟩]

/-- The address of `usmart_dev.parm` in the linked image. -/
def usmartParmAddr : Nat := 0x200000c8

end Generalplate.Usmart
