import I386Kernel.Base

/-!
# The text console of `devices/fb.c`

The character buffer is memory like any other: 25 rows of 80 cells of two bytes from `fb` on. Every store is recorded with its address. The CRT controller is the pair of an index and a data port at 0x3d4 and 0x3d5.
-/

namespace I386Kernel

def colCnt : Nat := 80

def rowCnt : Nat := 25

def grayOnBlack : UInt8 := 0x07

/-- Bytes of memory by their address, and the addresses of all stores so far. -/
structure Video where
  byte : Nat → UInt8
  written : List Nat

def Video.store (v : Video) (a : Nat) (b : UInt8) : Video :=
  { byte := Function.update v.byte a b, written := a :: v.written }

/-- The loop of `memcpy`, which is also `memmove`. -/
def Video.memcpy (v : Video) (dest src : Nat) : Nat → Video
  | 0 => v
  | size + 1 => (v.store dest (v.byte src)).memcpy (dest + 1) (src + 1) size

/-- The CRT controller: its index register and the registers behind it. -/
structure Crtc where
  index : UInt8
  reg : UInt8 → UInt8

namespace Crtc

variable (c : Crtc)

/-- `outb(0x3d4, b)` -/
def select (b : UInt8) : Crtc := { c with index := b }

/-- `inb(0x3d5)` -/
def read : UInt8 := c.reg c.index

/-- `outw(0x3d4, w)`: the low byte goes to the index port, the high byte to the data port. -/
def outw (w : Nat) : Crtc where
  index := UInt8.ofNat w
  reg := Function.update c.reg (UInt8.ofNat w) (UInt8.ofNat (w / 256))

/-- The cursor position the controller holds. -/
def position : Nat := (c.reg 0x0e).toNat * 256 + (c.reg 0x0f).toNat

end Crtc

structure Console where
  cx : Nat
  cy : Nat
  inited : Bool
  fb : Nat
  video : Video
  crtc : Crtc

namespace Console

variable (s : Console)

/-- `&fb[y][x][k]` -/
def cell (y x k : Nat) : Nat := s.fb + ((y * colCnt + x) * 2 + k)

def store (a : Nat) (b : UInt8) : Console := { s with video := s.video.store a b }

/-- The loop of `clear_row` from column `x` on. -/
def clearCells (v : Video) (row : Nat) (x : Nat) : Nat → Video
  | 0 => v
  | n + 1 =>
      let v := v.store (row + x * 2) (ascii ' ')
      let v := v.store (row + x * 2 + 1) grayOnBlack
      clearCells v row (x + 1) n

def clearRow (y : Nat) : Console := { s with video := clearCells s.video (s.cell y 0 0) 0 colCnt }

def moveCursor : Console :=
  let cp := (s.cx + colCnt * s.cy) % 2 ^ 16
  let c := s.crtc.outw (0x0e ||| (cp &&& 0xff00))
  { s with crtc := c.outw (0x0f ||| (cp <<< 8) % 2 ^ 16) }

def findCursor : Nat × Nat × Crtc :=
  let c := s.crtc.select 0x0e
  let hi := c.read
  let c := c.select 0x0f
  let cp := hi.toNat * 256 + c.read.toNat
  (cp % colCnt, cp / colCnt, c)

def initCursor : Console :=
  if s.inited then s
  else
    let s := { s with fb := 0xc00b8000 }
    let (_, cy, c) := s.findCursor
    let s := { s with cy := cy + 3, cx := 0, crtc := c }
    { s.moveCursor with inited := true }

def newline : Console :=
  let s := { s with cx := 0, cy := s.cy + 1 }
  if s.cy ≥ rowCnt then
    let s := { s with cy := rowCnt - 1 }
    let s := { s with video := s.video.memcpy (s.cell 0 0 0) (s.cell 1 0 0) (colCnt * 2 * (rowCnt - 1)) }
    s.clearRow (rowCnt - 1)
  else s

/-- The rows of `cls` from `y` on. -/
def clearRows (s : Console) (y : Nat) : Nat → Console
  | 0 => s
  | n + 1 => (s.clearRow y).clearRows (y + 1) n

def cls : Console := { s.clearRows 0 rowCnt with cx := 0, cy := 0 }.moveCursor

/-- `ROUND_UP` -/
def roundUp (x step : Nat) : Nat := (x + step - 1) / step * step

def fbPutc (ch : UInt8) : Console :=
  let s := s.initCursor
  let s :=
    if ch = ascii '\r' then { s with cx := 0 }
    else if ch = ascii '\n' then s.newline
    else if ch = 0x0c then s.cls
    else if ch = 0x08 then if s.cx > 0 then { s with cx := s.cx - 1 } else s
    else if ch = ascii '\t' then
      let s := { s with cx := roundUp (s.cx + 1) 8 }
      if s.cx ≥ colCnt then s.newline else s
    else
      let s := s.store (s.cell s.cy s.cx 0) ch
      let s := s.store (s.cell s.cy s.cx 1) grayOnBlack
      let s := { s with cx := s.cx + 1 }
      if s.cx ≥ colCnt then s.newline else s
  s.moveCursor

end Console

end I386Kernel
