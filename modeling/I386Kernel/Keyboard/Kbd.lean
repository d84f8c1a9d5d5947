import I386Kernel.Text.Formats

/-!
# `devices/kbd.c`

The interrupt handler of the keyboard as a function of the modifier variables and of the bytes the data register delivers, with the characters it prints. The tables are those of the source without their sentinels, and a pointer to a modifier variable is the name of the variable.
-/

namespace I386Kernel.Kbd

/-- The modifier variables. -/
inductive Var where
  | leftShift
  | rightShift
  | leftAlt
  | rightAlt
  | leftCtrl
  | rightCtrl
  | capsLocks
deriving DecidableEq

abbrev State := Var → Bool

structure Keymap where
  scanCodeFirst : Nat
  chars : List UInt8

structure SpecialKeymap where
  scanCode : BitVec 16
  state : Var

def keymap (scanCodeFirst : Nat) (chars : String) : Keymap := ⟨scanCodeFirst, chars.toList.map ascii⟩

def invariantKeymap : List Keymap :=
  [⟨0x01, [0x1b]⟩, ⟨0x0e, [0x08]⟩, keymap 0x0f "\tQWERTYUIOP", keymap 0x1c "\r", keymap 0x1e "ASDFGHJKL",
    keymap 0x2c "ZXCVBNM", keymap 0x37 "*", keymap 0x39 " ", ⟨0x53, [0x7f]⟩]

def unshiftedKeymap : List Keymap :=
  [keymap 0x02 "1234567890-=", keymap 0x1a "[]", keymap 0x27 ";'`", keymap 0x2b "\\", keymap 0x33 ",./"]

def shiftedKeymap : List Keymap :=
  [keymap 0x02 "!@#$%^&*()_+", keymap 0x1a "\x7b\x7d", keymap 0x27 ":\"~", keymap 0x2b "|", keymap 0x33 "<>?"]

def specialKeymap : List SpecialKeymap :=
  [⟨0x1d, .leftCtrl⟩, ⟨0x2a, .leftShift⟩, ⟨0x36, .rightShift⟩, ⟨0x38, .leftAlt⟩, ⟨0xe01d, .rightCtrl⟩,
    ⟨0xe038, .rightAlt⟩]

def mapScanCode : List Keymap → Nat → Option UInt8
  | [], _ => none
  | km :: kms, scanCode =>
      if scanCode ≥ km.scanCodeFirst ∧ scanCode < km.scanCodeFirst + km.chars.length then
        km.chars[scanCode - km.scanCodeFirst]?
      else mapScanCode kms scanCode

def toLower (c : UInt8) : UInt8 := if c ≥ ascii 'A' ∧ c ≤ ascii 'Z' then c - ascii 'A' + ascii 'a' else c

/-- The condition of the second branch, and the character it stores. -/
def mapKey (shift : Bool) (scanCode : Nat) : Option UInt8 :=
  (mapScanCode invariantKeymap scanCode).orElse fun _ =>
    (if !shift then mapScanCode unshiftedKeymap scanCode else none).orElse fun _ =>
      if shift then mapScanCode shiftedKeymap scanCode else none

/-- `printk("%c", ch)`: the characters it hands to `fb_putc`. -/
def printkChar (ch : UInt8) : List UInt8 := (vsprintf [ascii '%', ascii 'c'] [⟨ch.toBitVec.signExtend 32, []⟩]).1

/-- The scan code with the release bit; the second byte is read only after the prefix. -/
def readScanCode (inb : UInt8 × UInt8) : BitVec 16 :=
  let scanCode := inb.1.toBitVec.setWidth 16
  if scanCode = 0xe0 then (scanCode <<< 8) ||| inb.2.toBitVec.setWidth 16 else scanCode

def kbdInterrupt (s : State) (inb : UInt8 × UInt8) : State × List UInt8 :=
  let shift := s .leftShift || s .rightShift
  let alt := s .leftAlt || s .rightAlt
  let ctrl := s .leftCtrl || s .rightAlt
  let scanCode := readScanCode inb
  let release := decide (scanCode &&& 0x80 ≠ 0)
  let scanCode := scanCode &&& ~~~0x80
  if scanCode = 0x3a then (if !release then Function.update s .capsLocks (!s .capsLocks) else s, [])
  else
    match mapKey shift scanCode.toNat with
    | some ch =>
        if !release then
          let ch := if ctrl ∧ ch ≥ 0x40 ∧ ch < 0x60 then ch - 0x40 else if shift = s .capsLocks then toLower ch else ch
          let ch := if alt then ch + 0x80 else ch
          (s, printkChar ch)
        else (s, [])
    | none =>
        match specialKeymap.find? fun sp => sp.scanCode = scanCode with
        | some sp => (Function.update s sp.state !release, [])
        | none => (s, [])

/-! ## What is printed -/

/-- The scan code of a key, without the release bit. -/
def code (inb : UInt8 × UInt8) : BitVec 16 := readScanCode inb &&& ~~~0x80

/-- The key goes down. -/
def isMake (inb : UInt8 × UInt8) : Bool := decide (readScanCode inb &&& 0x80 = 0)

/-- The key of a modifier. -/
def Var.code : Var → BitVec 16
  | leftShift => 0x2a
  | rightShift => 0x36
  | leftAlt => 0x38
  | rightAlt => 0xe038
  | leftCtrl => 0x1d
  | rightCtrl => 0xe01d
  | capsLocks => 0x3a

end I386Kernel.Kbd
