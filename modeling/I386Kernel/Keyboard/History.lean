import I386Kernel.Keyboard.Kbd

/-!
# The keyboard over a history of events

What the modifiers and the printed characters should be, told from the history of makes and breaks alone and from the layout of the keys, and where the handler keeps to it. The variables always do; a character does not when it is looked up with the right Alt key in the place of the right Ctrl key.
-/

namespace I386Kernel.Kbd

/-- The bytes an interrupt reads, the second one only after a prefix. -/
abbrev Event := UInt8 × UInt8

/-! ## The history -/

/-- The last event of the key was a make. -/
def held (key : BitVec 16) (past : List Event) : Bool := (past.filter fun ev => code ev = key).getLast?.any isMake

/-- The parity of the makes of caps lock. -/
def capsLock (past : List Event) : Bool := past.countP (fun ev => code ev = 0x3a ∧ isMake ev) % 2 = 1

def shiftHeld (past : List Event) : Bool := held 0x2a past || held 0x36 past

def altHeld (past : List Event) : Bool := held 0x38 past || held 0xe038 past

def ctrlHeld (past : List Event) : Bool := held 0x1d past || held 0xe01d past

/-- A row of keys: the scan code of the first one, and the characters without and with Shift, letters in upper case. -/
structure Row where
  first : Nat
  plain : List UInt8
  shifted : List UInt8

def row (first : Nat) (plain shifted : String) : Row := ⟨first, plain.toList.map ascii, shifted.toList.map ascii⟩

def layout : List Row :=
  [⟨0x01, [0x1b], [0x1b]⟩, row 0x02 "1234567890-=" "!@#$%^&*()_+", ⟨0x0e, [0x08], [0x08]⟩,
    row 0x0f "\tQWERTYUIOP[]" "\tQWERTYUIOP\x7b\x7d", row 0x1c "\r" "\r",
    row 0x1e "ASDFGHJKL;'`" "ASDFGHJKL:\"~", row 0x2b "\\ZXCVBNM,./" "|ZXCVBNM<>?",
    row 0x37 "*" "*", row 0x39 " " " ", ⟨0x53, [0x7f], [0x7f]⟩]

def keyChar (shift : Bool) (key : Nat) : Option UInt8 :=
  (layout.find? fun r => r.first ≤ key ∧ key < r.first + r.plain.length).bind fun r =>
    (if shift then r.shifted else r.plain)[key - r.first]?

def isLetter (ch : UInt8) : Bool := ascii 'A' ≤ ch ∧ ch ≤ ascii 'Z'

/-- The character a key types after a history. -/
def typed (past : List Event) (ch : UInt8) : UInt8 :=
  let ch :=
    if ctrlHeld past ∧ 0x40 ≤ ch ∧ ch < 0x60 then ch - 0x40
    else if isLetter ch ∧ shiftHeld past = capsLock past then ch + 0x20
    else ch
  if altHeld past then ch + 0x80 else ch

/-- What an event prints after a history. -/
def expected (past : List Event) (ev : Event) : List UInt8 :=
  if isMake ev then ((keyChar (shiftHeld past) (code ev).toNat).map (typed past)).toList else []

/-- What a variable holds after a history. -/
def tracked (past : List Event) (f : Var) : Bool := if f = .capsLocks then capsLock past else held f.code past

/-! ## The handler on a history -/

def after (past : List Event) : State := past.foldl (fun s ev => (kbdInterrupt s ev).1) fun _ => false

/-- The event prints what it should, leaves the variables as the history tells, and changes no variable but its own. -/
structure Conforms (past : List Event) (ev : Event) : Prop where
  printed : (kbdInterrupt (after past) ev).2 = expected past ev
  state : ∀ f, (kbdInterrupt (after past) ev).1 f = tracked (past ++ [ev]) f
  own : ∀ f : Var, code ev ≠ f.code → (kbdInterrupt (after past) ev).1 f = after past f

end I386Kernel.Kbd
